import TorusHyperBft.HotStuff.Collector

namespace TorusHyperBft.HotStuff

open Epoch (PubKey ValidatorSet)

/-! What the collectors give out is accepted, and what an accepted timeout certificate says about
its signers. -/

section Tallied

variable {verify : PubKey → List Byte → SignatureBytes → Bool} {message message' : Nat → List Byte}
  {set : ValidatorSet} {signatures : SignatureSet} {power place : Nat} {signer : PubKey}
  {signature : SignatureBytes}

/-- The signatures verify and weigh what was counted. -/
def Tallied (verify : PubKey → List Byte → SignatureBytes → Bool) (message : Nat → List Byte)
    (set : ValidatorSet) (signatures : SignatureSet) (power : Nat) : Prop :=
  Tally.Tallied (fun place key signature => verify key (message place) signature)
    set.validatorsAndPowers signatures power

theorem tallied_new : Tallied verify message set (SignatureSet.new set.validators.length) 0 := by
  rw [set.validators_length]
  exact Tally.tallied_empty _ _

theorem Tallied.take (tallied : Tallied verify message set signatures power)
    (found : set.position signer = some place) (vacant : signatures.vacant place = true)
    (signed : verify signer (message' place) signature = true)
    (others : ∀ other, other ≠ place → message' other = message other) :
    Tallied verify message' set (signatures.set place (some signature))
      (power + (set.power signer).getD 0) := by
  obtain ⟨own, known, named⟩ := ValidatorSet.position_member found
  rw [known, Option.getD_some]
  apply Tally.Tallied.fill tallied (Option.isNone_iff_eq_none.mp vacant) named signed
  intro other different
  funext key signature
  rw [others other different]

theorem Tallied.accepted (tallied : Tallied verify message set signatures power)
    (reached : set.quorum ≤ power) :
    signatures.length = set.validators.length ∧
      signedByQuorum verify message signatures set = true := by
  refine ⟨by rw [set.validators_length, tallied.length], signedByQuorum_iff.mpr ⟨?_, ?_⟩⟩
  · exact tallied.checked
  · rw [tallied.power] at reached
    exact reached

end Tallied

variable {set : ValidatorSet}

namespace PhaseVoteCollector

variable {verify : PubKey → List Byte → SignatureBytes → Bool}

/-- Every signature set of the collector is tallied. -/
def Collected (verify : PubKey → List Byte → SignatureBytes → Bool) (set : ValidatorSet)
    (collector : PhaseVoteCollector) : Prop :=
  collector.validatorSet = set ∧ ∀ key : CryptoHash × Phase,
    Tallied verify (fun _ => phaseVoteBytes collector.chainId collector.view key.1 key.2) set
      (collector.signatureSet key).1 (collector.signatureSet key).2

theorem collected_new (chainId : ChainId) (view : ViewNumber) (set : ValidatorSet) :
    Collected verify set (new chainId view set) :=
  ⟨rfl, fun _ => tallied_new⟩

theorem collect_kept {collector : PhaseVoteCollector}
    {input : PubKey × PhaseVote} (collected : Collected verify set collector)
    (correct : input.2.isCorrect verify input.1 = true) :
    Collected verify set (collector.collect input).1 ∧
      ∀ pc, (collector.collect input).2 = some pc → pc.isCorrectlySigned verify set = true := by
  obtain ⟨signer, vote⟩ := input
  obtain ⟨rfl, tallies⟩ := collected
  simp only [collect]
  split
  · exact ⟨⟨rfl, tallies⟩, by simp⟩
  · rename_i matching
    rw [not_or, not_ne_iff, not_ne_iff] at matching
    split
    · exact ⟨⟨rfl, tallies⟩, by simp⟩
    · rename_i place found
      split
      · rename_i vacant
        have signed : verify signer (phaseVoteBytes collector.chainId collector.view vote.block
            vote.phase) vote.signature = true := by
          rw [matching.1, matching.2]
          exact correct
        have taken := (tallies (vote.block, vote.phase)).take found vacant signed fun _ _ => rfl
        split
        · rename_i reached
          refine ⟨⟨rfl, fun key => ?_⟩, ?_⟩
          · by_cases same : key = (vote.block, vote.phase)
            · subst same
              simp only [signatureSet, AList.lookup_erase, Option.getD_none]
              exact tallied_new
            · simp only [signatureSet, AList.lookup_erase_ne same]
              exact tallies key
          · rintro pc ⟨⟩
            obtain ⟨length, signed⟩ := taken.accepted reached
            simp only [PhaseCertificate.isCorrectlySigned, length, signed, beq_self_eq_true,
              Bool.and_self]
        · refine ⟨⟨rfl, fun key => ?_⟩, by simp⟩
          by_cases same : key = (vote.block, vote.phase)
          · subst same
            simp only [signatureSet, AList.lookup_insert, Option.getD_some]
            exact taken
          · simp only [signatureSet, AList.lookup_insert_ne same]
            exact tallies key
      · exact ⟨⟨rfl, tallies⟩, by simp⟩

end PhaseVoteCollector

namespace NeCollector

variable {verify : PubKey → List Byte → SignatureBytes → Bool}

/-- The collector's signature set is tallied for its own chain and set. -/
structure Collected (verify : PubKey → List Byte → SignatureBytes → Bool) (chainId : ChainId)
    (set : ValidatorSet) (collector : NeCollector) : Prop where
  chain : collector.chainId = chainId
  members : collector.validatorSet = set
  tallied : Tallied verify
    (fun _ => noEndorsementBytes chainId collector.view collector.highTipQcView) set
    collector.signatureSet collector.signatureSetPower

theorem collected_new (chainId : ChainId) (view highTipQcView : ViewNumber) (set : ValidatorSet) :
    Collected verify chainId set (new chainId view highTipQcView set) :=
  ⟨rfl, rfl, tallied_new⟩

/-- A collector keeps only valid votes, and a certificate it gives verifies. -/
theorem step_kept {chainId : ChainId} {collector : NeCollector}
    {input : NeInput} (collected : Collected verify chainId set collector) :
    Collected verify chainId set (collector.step verify input).1 ∧
      ∀ nec, (collector.step verify input).2 = some nec →
        nec.isCorrectlySigned verify chainId set = true := by
  obtain ⟨rfl, rfl, tallied⟩ := collected
  have unchanged : Collected verify collector.chainId collector.validatorSet collector :=
    ⟨rfl, rfl, tallied⟩
  cases input with
  | registerVoter voter => exact ⟨⟨rfl, rfl, tallied⟩, by simp [step]⟩
  | collect signer view highTipQcView signature =>
    simp only [step, collect]
    split
    · exact ⟨unchanged, by simp⟩
    · rename_i matching
      rw [not_or, not_ne_iff, not_ne_iff] at matching
      obtain ⟨rfl, rfl⟩ := matching
      split
      · exact ⟨unchanged, by simp⟩
      · split
        · exact ⟨unchanged, by simp⟩
        · rename_i place found
          split
          · exact ⟨unchanged, by simp⟩
          · rename_i vacant
            split
            · exact ⟨unchanged, by simp⟩
            · rename_i signed
              simp only [Bool.not_eq_true', Bool.not_eq_false] at vacant signed
              have taken := tallied.take found vacant signed fun _ _ => rfl
              split
              · rename_i reached
                refine ⟨⟨rfl, rfl, taken⟩, ?_⟩
                rintro nec ⟨⟩
                obtain ⟨length, quorum⟩ := taken.accepted reached
                simp only [NoEndorsementCertificate.isCorrectlySigned, length, quorum,
                  beq_self_eq_true, Bool.and_self]
              · exact ⟨⟨rfl, rfl, taken⟩, by simp⟩

end NeCollector

section Reports

variable {signatures : SignatureSet} {metadata : List VoterMetadata} {place : Nat}
  {signature : SignatureBytes} {voter : VoterMetadata}

theorem reported_set (vacant : (signatures[place]?).join = none)
    (inside : place < signatures.length) (length : metadata.length = signatures.length)
    (other : VoterMetadata) :
    Reported (signatures.set place (some signature)) (metadata.set place voter) other ↔
      Reported signatures metadata other ∨ voter = other := by
  constructor
  · rintro ⟨index, found, filled, listed⟩
    by_cases same : index = place
    · subst same
      rw [List.getElem?_set_self (by omega), Option.some.injEq] at listed
      exact .inr listed
    · rw [List.getElem?_set_ne (Ne.symm same)] at filled listed
      exact .inl ⟨index, found, filled, listed⟩
  · rintro (⟨index, found, filled, listed⟩ | rfl)
    · have different : place ≠ index := by
        rintro rfl
        simp [filled] at vacant
      refine ⟨index, found, ?_, ?_⟩
      · rw [List.getElem?_set_ne different]
        exact filled
      · rw [List.getElem?_set_ne different]
        exact listed
    · exact ⟨place, signature, List.getElem?_set_self inside, List.getElem?_set_self (by omega)⟩

theorem reportedAs_set {α : Type} {pick : VoterMetadata → Option α}
    (vacant : (signatures[place]?).join = none) (inside : place < signatures.length)
    (length : metadata.length = signatures.length) :
    ReportedAs pick (signatures.set place (some signature)) (metadata.set place voter) =
      fun value => ReportedAs pick signatures metadata value ∨ pick voter = some value := by
  funext value
  simp only [ReportedAs, reported_set vacant inside length, eq_iff_iff]
  constructor
  · rintro ⟨other, reported | rfl, picked⟩
    · exact .inl ⟨other, reported, picked⟩
    · exact .inr picked
  · rintro (⟨other, reported, picked⟩ | picked)
    · exact ⟨other, .inl reported, picked⟩
    · exact ⟨voter, .inr rfl, picked⟩

end Reports

namespace TimeoutVoteCollector

variable {verify : PubKey → List Byte → SignatureBytes → Bool}

theorem higher_map {α β : Type} {rank : β → ViewNumber} (summary : α → β) (high value : Option α) :
    (higher (fun item => rank (summary item)) high value).map summary =
      higher rank (high.map summary) (value.map summary) := by
  cases high with
  | none => cases value <;> rfl
  | some high =>
    cases value with
    | none => rfl
    | some value =>
      simp only [higher, Option.map_some]
      split <;> rfl

theorem highest_higher {α : Type} {rank : α → ViewNumber} {Seen : α → Prop} {high : Option α}
    (highest : Highest rank Seen high) (value : Option α) :
    Highest rank (fun other => Seen other ∨ value = some other) (higher rank high value) := by
  cases value with
  | none =>
    cases high with
    | none => simpa [higher, Highest] using highest
    | some high => simpa [higher, Highest] using highest
  | some value =>
    cases high with
    | none =>
      refine ⟨.inr rfl, ?_⟩
      rintro other (seen | same)
      · exact absurd seen (highest other)
      · rw [Option.some.inj same]
    | some high =>
      simp only [higher]
      split
      · rename_i later
        refine ⟨.inr rfl, ?_⟩
        rintro other (seen | same)
        · exact le_trans (highest.2 other seen) (le_of_lt later)
        · rw [Option.some.inj same]
      · rename_i sooner
        refine ⟨.inl highest.1, ?_⟩
        rintro other (seen | same)
        · exact highest.2 other seen
        · rw [← Option.some.inj same]
          exact le_of_not_gt sooner

/-- The signatures are over the reports, and the summaries are the highest of them. -/
structure Collected (verify : PubKey → List Byte → SignatureBytes → Bool) (set : ValidatorSet)
    (collector : TimeoutVoteCollector) : Prop where
  members : collector.validatorSet = set
  length : collector.voterMetadata.length = collector.signatureSet.length
  tallied : Tallied verify collector.certificate.signedBytes set collector.signatureSet
    collector.signatureSetPower
  faithful : Faithful collector.certificate

theorem collected_new (chainId : ChainId) (view : ViewNumber) (set : ValidatorSet) :
    Collected verify set (new chainId view set) where
  members := rfl
  length := by simp [new, SignatureSet.new]
  tallied := tallied_new
  faithful := by
    have unsigned : ∀ voter, ¬ Reported (new chainId view set).signatureSet
        (new chainId view set).voterMetadata voter := by
      rintro voter ⟨place, signature, filled, _⟩
      simp only [new, SignatureSet.new, List.getElem?_replicate] at filled
      split at filled <;> simp at filled
    refine ⟨?_, ?_, ?_, rfl⟩
    · rintro tip ⟨voter, reported, _⟩
      exact unsigned voter reported
    · rintro tip ⟨voter, reported, _⟩
      exact absurd reported (unsigned voter)
    · rintro qc ⟨voter, reported, _⟩
      exact unsigned voter reported

section Take

variable {set : ValidatorSet} {collector : TimeoutVoteCollector} {signer : PubKey}
  {vote : TimeoutVote} {place : Nat}

theorem Collected.tallied_take (collected : Collected verify set collector)
    (found : set.position signer = some place)
    (vacant : collector.signatureSet.vacant place = true)
    (inside : place < collector.signatureSet.length)
    (chains : collector.chainId = vote.chainId) (views : collector.view = vote.view)
    (correct : vote.isCorrect verify signer = true) :
    Tallied verify (collector.take place signer vote).certificate.signedBytes set
      (collector.take place signer vote).signatureSet
      (collector.take place signer vote).signatureSetPower := by
  have own : (collector.take place signer vote).certificate.signedBytes place =
      vote.messageBytes := by
    simp only [TimeoutCertificate.signedBytes, TimeoutCertificate.metadataAt, certificate, take,
      TimeoutVote.messageBytes, chains, views]
    rw [List.getElem?_set_self (by rw [collected.length]; exact inside), Option.getD_some]
  have others : ∀ other, other ≠ place →
      (collector.take place signer vote).certificate.signedBytes other =
        collector.certificate.signedBytes other := by
    intro other different
    simp only [TimeoutCertificate.signedBytes, TimeoutCertificate.metadataAt, certificate, take]
    rw [List.getElem?_set_ne (Ne.symm different)]
  have signed : verify signer ((collector.take place signer vote).certificate.signedBytes place)
      vote.signature = true := by
    rw [own]
    exact correct
  have taken := collected.tallied.take found vacant signed others
  rw [← collected.members] at taken ⊢
  exact taken

theorem Collected.faithful_take (collected : Collected verify set collector)
    (vacant : collector.signatureSet.vacant place = true)
    (inside : place < collector.signatureSet.length) (views : collector.view = vote.view)
    (timely : ∀ tip, vote.localTip = some tip → tip.view ≤ vote.view) :
    Faithful (collector.take place signer vote).certificate := by
  have empty := Option.isNone_iff_eq_none.mp vacant
  have reports := fun {α : Type} {pick : VoterMetadata → Option α} =>
    @reportedAs_set collector.signatureSet collector.voterMetadata place vote.signature
      vote.signedSummaries α pick empty inside collected.length
  refine ⟨?_, ?_, ?_, rfl⟩
  · simp only [certificate, take, reports]
    have later := highest_higher collected.faithful.tip (vote.localTip.map TipInfo.summary)
    rw [← higher_map] at later
    exact later
  · simp only [certificate, take, reports]
    rintro summary (reported | own)
    · exact collected.faithful.timely summary reported
    · obtain ⟨tip, carried, rfl⟩ := Option.map_eq_some_iff.mp own
      rw [views]
      exact timely tip carried
  · simp only [certificate, take, reports]
    have later := highest_higher collected.faithful.qc
      (vote.highestQc.map PhaseCertificate.summary)
    rw [← higher_map] at later
    exact later

end Take

theorem collect_kept {collector : TimeoutVoteCollector}
    {input : PubKey × TimeoutVote} (collected : Collected verify set collector)
    (correct : input.2.isCorrect verify input.1 = true)
    (timely : ∀ tip, input.2.localTip = some tip → tip.view ≤ input.2.view) :
    Collected verify set (collector.collect input).1 ∧
      ∀ tc, (collector.collect input).2 = some tc → tc.isCorrectlySigned verify set = true := by
  obtain ⟨signer, vote⟩ := input
  simp only [collect]
  split
  · exact ⟨collected, by simp⟩
  · rename_i matching
    rw [not_or, not_ne_iff, not_ne_iff] at matching
    split
    · exact ⟨collected, by simp⟩
    · rename_i place found
      rw [collected.members] at found
      split
      · rename_i vacant
        have inside : place < collector.signatureSet.length := by
          obtain ⟨_, _, named⟩ := ValidatorSet.position_member found
          rw [collected.tallied.length]
          exact (List.getElem?_eq_some_iff.mp named).1
        have taken : Collected verify set (collector.take place signer vote) :=
          { members := collected.members
            length := by
              simp only [take, List.length_set]
              exact collected.length
            tallied := collected.tallied_take found vacant inside matching.1 matching.2 correct
            faithful := collected.faithful_take vacant inside matching.2 timely }
        split
        · rename_i reached
          rw [taken.members] at reached
          refine ⟨taken, ?_⟩
          rintro tc ⟨⟩
          obtain ⟨length, quorum⟩ := taken.tallied.accepted reached
          have reports : (collector.take place signer vote).certificate.voterMetadata.length =
              set.validators.length := taken.length.trans length
          have signatures : (collector.take place signer vote).certificate.signatures.length =
              set.validators.length := length
          have signed := summariesAreSigned_iff.mpr taken.faithful
          simp only [TimeoutCertificate.isCorrectlySigned, signatures, reports, signed,
            beq_self_eq_true, Bool.true_and]
          exact quorum
        · exact ⟨taken, by simp⟩
      · exact ⟨collected, by simp⟩

end TimeoutVoteCollector

section Accepted

variable {verify : PubKey → List Byte → SignatureBytes → Bool} {set : ValidatorSet}
  {tc : TimeoutCertificate}

/-- What holds of a certificate that is accepted under a set. The last field is about any vote
whose signed bytes are those of a signer of the certificate. -/
structure FaithfulTo (verify : PubKey → List Byte → SignatureBytes → Bool) (set : ValidatorSet)
    (tc : TimeoutCertificate) : Prop where
  quorum : set.quorum ≤ signers tc.signatures set
  signed : ∀ (place : Nat) (signature : SignatureBytes),
    tc.signatures[place]? = some (some signature) →
      ∃ (key : PubKey) (power : Nat) (voter : VoterMetadata),
        set.validatorsAndPowers[place]? = some (key, power) ∧ tc.voterMetadata[place]? = some voter ∧
          verify key (timeoutVoteBytes tc.chainId tc.view voter.1 voter.2) signature = true
  summaries : Faithful tc
  bounded : ∀ (place : Nat) (signature : SignatureBytes) (vote : TimeoutVote),
    tc.signatures[place]? = some (some signature) → vote.messageBytes = tc.signedBytes place →
      vote.view = tc.view ∧
      (∀ qc, vote.highestQc = some qc → ∃ high, tc.highQc = some high ∧ qc.view ≤ high.view) ∧
      ∀ tip, vote.localTip = some tip →
        tip.view ≤ tc.view ∧ ∃ high, tc.highTip = some high ∧ tip.view ≤ high.view

theorem highest_of_map {α β : Type} {rank : β → ViewNumber} {Seen : β → Prop} {summary : α → β}
    {high : Option α} (highest : Highest rank Seen (high.map summary)) {value : β}
    (seen : Seen value) : ∃ best, high = some best ∧ rank value ≤ rank (summary best) := by
  cases high with
  | none => exact absurd seen (highest value)
  | some best => exact ⟨best, rfl, highest.2 value seen⟩

theorem TimeoutCertificate.faithfulTo (accepted : tc.isCorrectlySigned verify set = true) :
    FaithfulTo verify set tc := by
  simp only [TimeoutCertificate.isCorrectlySigned, Bool.and_eq_true, beq_iff_eq,
    summariesAreSigned_iff, signedByQuorum_iff] at accepted
  obtain ⟨⟨⟨length, reports⟩, faithful⟩, authentic, quorum⟩ := accepted
  have placed : ∀ (place : Nat) (signature : SignatureBytes),
      tc.signatures[place]? = some (some signature) →
        ∃ voter, tc.voterMetadata[place]? = some voter := by
    intro place signature filled
    have inside := (List.getElem?_eq_some_iff.mp filled).1
    exact ⟨_, List.getElem?_eq_getElem (by omega)⟩
  refine ⟨quorum, ?_, faithful, ?_⟩
  · intro place signature filled
    have inside := (List.getElem?_eq_some_iff.mp filled).1
    obtain ⟨voter, listed⟩ := placed place signature filled
    have named : set.validatorsAndPowers[place]? = some _ :=
      List.getElem?_eq_getElem (by rw [← set.validators_length]; omega)
    have verified := authentic place signature _ filled named
    simp only [TimeoutCertificate.signedBytes, TimeoutCertificate.metadataAt, Nat.zero_add, listed,
      Option.getD_some] at verified
    exact ⟨_, _, voter, named, listed, verified⟩
  · intro place signature vote filled same
    obtain ⟨voter, listed⟩ := placed place signature filled
    simp only [TimeoutVote.messageBytes, TimeoutCertificate.signedBytes,
      TimeoutCertificate.metadataAt, listed, Option.getD_some] at same
    obtain ⟨_, views, tips, qcs⟩ := timeoutVoteBytes_inj same
    have reported : Reported tc.signatures tc.voterMetadata voter :=
      ⟨place, signature, filled, listed⟩
    refine ⟨views, fun qc carried => ?_, fun tip carried => ?_⟩
    · have seen : voter.2 = some qc.summary := by
        rw [← qcs, TimeoutVote.signedSummaries, carried, Option.map_some]
      exact highest_of_map faithful.qc ⟨voter, reported, seen⟩
    · have seen : voter.1 = some tip.summary := by
        rw [← tips, TimeoutVote.signedSummaries, carried, Option.map_some]
      exact ⟨faithful.timely tip.summary ⟨voter, reported, seen⟩,
        highest_of_map faithful.tip ⟨voter, reported, seen⟩⟩

end Accepted

/-- Whatever is fed to the collectors, the certificates they give out are accepted, and an
accepted timeout certificate is faithful to its signers. -/
theorem collected_certificates_accepted (verify : PubKey → List Byte → SignatureBytes → Bool)
    (qcOk : PhaseCertificate → Bool) (tipOk : TipInfo → Bool) (set : ValidatorSet)
    (chainId : ChainId) (view highTipQcView : ViewNumber) (votes : List (PubKey × PhaseVote))
    (timeouts : List (PubKey × TimeoutVote)) (attestations : List NeInput)
    (correct : ∀ vote ∈ votes, vote.2.isCorrect verify vote.1 = true)
    (checked : ∀ vote ∈ timeouts, vote.2.voteOk verify qcOk tipOk vote.1 = true) :
    (∀ pc ∈ Tally.gather PhaseVoteCollector.collect (.new chainId view set) votes,
      pc.isCorrectlySigned verify set = true) ∧
    (∀ tc ∈ Tally.gather TimeoutVoteCollector.collect (.new chainId view set) timeouts,
      tc.isCorrectlySigned verify set = true) ∧
    (∀ nec ∈ Tally.gather (NeCollector.step verify) (.new chainId view highTipQcView set)
      attestations, nec.isCorrectlySigned verify chainId set = true) ∧
    ∀ tc : TimeoutCertificate, tc.isCorrectlySigned verify set = true →
      FaithfulTo verify set tc := by
  refine ⟨?_, ?_, ?_, fun tc accepted => tc.faithfulTo accepted⟩
  · have step : ∀ (state : PhaseVoteCollector) (input : PubKey × PhaseVote),
        state.Collected verify set → input.2.isCorrect verify input.1 = true →
          (state.collect input).1.Collected verify set ∧ ∀ pc, (state.collect input).2 = some pc →
            pc.isCorrectlySigned verify set = true :=
      fun state input => PhaseVoteCollector.collect_kept
    exact Tally.gather_all step (PhaseVoteCollector.collected_new chainId view set) correct
  · have step : ∀ (state : TimeoutVoteCollector) (input : PubKey × TimeoutVote),
        state.Collected verify set → input.2.voteOk verify qcOk tipOk input.1 = true →
          (state.collect input).1.Collected verify set ∧ ∀ tc, (state.collect input).2 = some tc →
            tc.isCorrectlySigned verify set = true := by
      intro state input collected ok
      simp only [TimeoutVote.voteOk, Bool.and_eq_true, Option.all_eq_true, decide_eq_true_eq] at ok
      exact TimeoutVoteCollector.collect_kept collected ok.1.1 fun tip carried =>
        (ok.2 tip carried).1
    exact Tally.gather_all step (TimeoutVoteCollector.collected_new chainId view set) checked
  · have step : ∀ (state : NeCollector) (input : NeInput),
        state.Collected verify chainId set → True →
          (state.step verify input).1.Collected verify chainId set ∧
            ∀ nec, (state.step verify input).2 = some nec →
              nec.isCorrectlySigned verify chainId set = true :=
      fun state input collected _ => NeCollector.step_kept collected
    exact Tally.gather_all step (NeCollector.collected_new chainId view highTipQcView set)
      fun _ _ => trivial

section Marked

def markOf (key : PubKey) (message : List Byte) : SignatureBytes :=
  BitVec.ofNat 512 (fromBytes message * 2 ^ 256 + key.toNat)

def marked (key : PubKey) (message : List Byte) (signature : SignatureBytes) : Bool :=
  signature = markOf key message

def threeSigners : ValidatorSet :=
  { powers := (((∅ : AList fun _ : PubKey => U64).insert 9 1).insert 4 1).insert 7 1 }

def markedVote (phase : Phase) (key : PubKey) : PubKey × PhaseVote :=
  (key,
    { chainId := 1
      view := 5
      block := 3
      phase := phase
      signature := markOf key (phaseVoteBytes 1 5 3 phase) })

def markedTimeout (key : PubKey) (tipView qcView : ViewNumber) : PubKey × TimeoutVote :=
  let qc : PhaseCertificate :=
    { chainId := 1, view := qcView, block := 2, phase := .generic, signatures := [none] }
  let tip : TipInfo :=
    { blockHash := 3
      blockHeight := 1
      blockJustify := qc
      blockDataHash := 0
      view := tipView
      leaderSignature := 0 }
  (key,
    { chainId := 1
      view := 5
      signature := markOf key (timeoutVoteBytes 1 5 (some tip.summary) (some qc.summary))
      highestTc := none
      localTip := some tip
      highestQc := some qc })

theorem collected_certificates_accepted_marked :
    (∀ pc ∈ Tally.gather PhaseVoteCollector.collect (.new 1 5 threeSigners)
      [markedVote .generic 4, markedVote .prepare 4, markedVote .generic 7, markedVote .generic 9],
      pc.isCorrectlySigned marked threeSigners = true) ∧
    ∀ tc ∈ Tally.gather TimeoutVoteCollector.collect (.new 1 5 threeSigners)
      [markedTimeout 7 4 3, markedTimeout 9 5 2, markedTimeout 4 5 3],
      tc.isCorrectlySigned marked threeSigners = true := by
  have accepted := collected_certificates_accepted marked (fun _ => true) (fun _ => true)
    threeSigners 1 5 4
    [markedVote .generic 4, markedVote .prepare 4, markedVote .generic 7, markedVote .generic 9]
    [markedTimeout 7 4 3, markedTimeout 9 5 2, markedTimeout 4 5 3]
    [.registerVoter 4, .collect 7 5 4 (markOf 7 (noEndorsementBytes 1 5 4))]
    (by decide +kernel) (by decide +kernel)
  exact ⟨accepted.1, accepted.2.1⟩

end Marked

end TorusHyperBft.HotStuff
