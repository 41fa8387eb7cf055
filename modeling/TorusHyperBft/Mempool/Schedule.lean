import TorusHyperBft.Mempool.Drained

namespace TorusHyperBft.Mempool

open List
open Signing (Address)

/-! What a drain is for: a greedy schedule over the senders' queues, told without the heap.

Every sender offers its next transaction that is not in flight. The greatest offer is taken if the
budgets hold it; a sender whose offer does not fit offers nothing more. -/

section Offers

variable (pool : EvmPool) (request : DrainRequest)

/-- From `nonce` on stand `count` transactions of the sender that are in flight. -/
def Passes (sender : Address) (nonce count : Nat) : Prop :=
  ∀ step < count, ∃ entry, pool.get sender (nonce + step) = some entry ∧
    request.inFlight entry.hash = true

def lowestNonce (sender : Address) : Option Nat :=
  ((pool.senderTxs sender).argmin EvmPoolEntry.nonce).map EvmPoolEntry.nonce

def ownOf (selected : List EvmPoolEntry) (sender : Address) : List EvmPoolEntry :=
  selected.filter fun entry => entry.sender = sender

/-- Where a sender goes on: behind its last selected transaction, at first at its lowest pooled
nonce. -/
def resumeNonce (selected : List EvmPoolEntry) (sender : Address) : Option Nat :=
  match (ownOf selected sender).getLast? with
  | some last => some (last.nonce + 1)
  | none => lowestNonce pool sender

/-- The sender's next transaction that is not in flight. -/
def Offers (selected : List EvmPoolEntry) (entry : EvmPoolEntry) : Prop :=
  ∃ nonce count, resumeNonce pool selected entry.sender = some nonce ∧
    Passes pool request entry.sender nonce count ∧
    pool.get entry.sender (nonce + count) = some entry ∧ request.inFlight entry.hash = false

/-- The sender's queue breaks off here. -/
def Gap (selected : List EvmPoolEntry) (sender : Address) : Prop :=
  ∃ nonce count, resumeNonce pool selected sender = some nonce ∧
    Passes pool request sender nonce count ∧ pool.get sender (nonce + count) = none

/-- The budgets hold one more transaction. The share does not bind a sender's first. -/
structure Fits (selected : List EvmPoolEntry) (entry : EvmPoolEntry) : Prop where
  gas : totalGas selected + entry.gasLimit.val ≤ request.gasBudget.val
  bytes : totalBytes (selected.map EvmPoolEntry.rawRlp) + entry.rawRlp.length ≤ request.byteBudget
  share : ∀ cap ∈ request.senderGasCap, ownOf selected entry.sender ≠ [] →
    totalGas (ownOf selected entry.sender) + entry.gasLimit.val ≤ cap.val

/-- It can pay the base fee. -/
def PaysBaseFee (entry : EvmPoolEntry) : Prop := request.minBaseFee ≤ entry.maxFeePerGas

instance (entry : EvmPoolEntry) : Decidable (PaysBaseFee request entry) :=
  inferInstanceAs (Decidable (_ ≤ _))

end Offers

section Schedule

variable (keccak : List Byte → B256) (pool : EvmPool) (request : DrainRequest)

def rankOf (entry : EvmPoolEntry) : Int ×ₗ U64 := (DrainEntry.new keccak entry request).rank

/-- No sender that still runs offers a better one. -/
def Greatest (selected : List EvmPoolEntry) (stopped : List Address) (entry : EvmPoolEntry) :
    Prop :=
  Offers pool request selected entry ∧ entry.sender ∉ stopped ∧
    ∀ other, Offers pool request selected other → other.sender ∉ stopped →
      rankOf keccak request other ≤ rankOf keccak request entry

/-- The transactions selected so far, and the senders stopped by a budget. -/
inductive Schedule : List EvmPoolEntry → List Address → Prop where
  | start : Schedule [] []
  | take {selected : List EvmPoolEntry} {stopped : List Address} {entry : EvmPoolEntry} :
      Schedule selected stopped → Greatest keccak pool request selected stopped entry →
      PaysBaseFee request entry → Fits request selected entry →
      Schedule (selected ++ [entry]) stopped
  | stop {selected : List EvmPoolEntry} {stopped : List Address} {entry : EvmPoolEntry} :
      Schedule selected stopped → Greatest keccak pool request selected stopped entry →
      PaysBaseFee request entry → ¬ Fits request selected entry →
      Schedule selected (entry.sender :: stopped)

/-- Every sender has come to a stop: at a budget, at a gap or at the base fee. -/
def Ended (selected : List EvmPoolEntry) (stopped : List Address) : Prop :=
  ∀ sender, lowestNonce pool sender ≠ none → sender ∈ stopped ∨ Gap pool request selected sender ∨
    ∃ entry, entry.sender = sender ∧ Offers pool request selected entry ∧
      ¬ PaysBaseFee request entry

end Schedule

section Own

variable {selected : List EvmPoolEntry} {entry : EvmPoolEntry} {sender : Address}

@[simp] theorem ownOf_nil : ownOf [] sender = [] := rfl

theorem ownOf_same : ownOf (selected ++ [entry]) entry.sender = ownOf selected entry.sender ++
    [entry] := by
  simp [ownOf]

theorem ownOf_other (other : entry.sender ≠ sender) :
    ownOf (selected ++ [entry]) sender = ownOf selected sender := by
  simp [ownOf, other]

theorem totalGas_ownOf_le (selected : List EvmPoolEntry) (sender : Address) :
    totalGas (ownOf selected sender) ≤ totalGas selected := by
  induction selected with
  | nil => exact Nat.le_refl _
  | cons entry selected ih =>
    by_cases same : entry.sender = sender
    · simpa [ownOf, same, totalGas] using ih
    · have less : totalGas (ownOf (entry :: selected) sender) = totalGas (ownOf selected sender) := by
        simp [ownOf, same]
      rw [less]
      exact ih.trans (by simp [totalGas])

variable {pool : EvmPool}

theorem resumeNonce_same : resumeNonce pool (selected ++ [entry]) entry.sender = some
    (entry.nonce + 1) := by
  simp [resumeNonce, ownOf_same]

theorem resumeNonce_other (other : entry.sender ≠ sender) :
    resumeNonce pool (selected ++ [entry]) sender = resumeNonce pool selected sender := by
  simp only [resumeNonce, ownOf_other other]

end Own

def queueFrom (pool : EvmPool) (sender : Address) (nonce count : Nat) : List EvmPoolEntry :=
  (List.range count).filterMap fun step => pool.get sender (nonce + step)

/-- No nonce of the range is missing. -/
def Unbroken (pool : EvmPool) (sender : Address) (nonce count : Nat) : Prop :=
  ∀ step < count, pool.get sender (nonce + step) ≠ none

section Queue

variable {pool : EvmPool} {request : DrainRequest} {sender : Address} {nonce count more : Nat}

theorem queueFrom_add : queueFrom pool sender nonce (count + more) =
    queueFrom pool sender nonce count ++ queueFrom pool sender (nonce + count) more := by
  simp only [queueFrom, range_add, filterMap_append, filterMap_map]
  congr 2
  funext step
  simp [Nat.add_assoc]

theorem queueFrom_one {entry : EvmPoolEntry} (found : pool.get sender nonce = some entry) :
    queueFrom pool sender nonce 1 = [entry] := by
  simp [queueFrom, found]

theorem Passes.unbroken (passes : Passes pool request sender nonce count) :
    Unbroken pool sender nonce count := by
  intro step below
  obtain ⟨entry, found, -⟩ := passes step below
  simp [found]

theorem Unbroken.add (first : Unbroken pool sender nonce count)
    (second : Unbroken pool sender (nonce + count) more) :
    Unbroken pool sender nonce (count + more) := by
  intro step below
  by_cases early : step < count
  · exact first step early
  · have late := second (step - count) (by omega)
    rwa [show nonce + count + (step - count) = nonce + step by omega] at late

theorem Passes.queue (passes : Passes pool request sender nonce count) :
    (queueFrom pool sender nonce count).filter (fun entry => !request.inFlight entry.hash) =
    [] := by
  rw [filter_eq_nil_iff]
  intro entry member
  obtain ⟨step, below, found⟩ := mem_filterMap.mp member
  obtain ⟨passed, isPassed, flies⟩ := passes step (List.mem_range.mp below)
  rw [isPassed] at found
  cases found
  simp [flies]

/-- The selected transactions of a sender, with those in flight between them, stand at nonces on
end from its lowest. -/
def Queued (pool : EvmPool) (request : DrainRequest) (selected : List EvmPoolEntry)
    (sender : Address) : Prop :=
  match lowestNonce pool sender with
  | none => ownOf selected sender = []
  | some lowest => ∃ count, Unbroken pool sender lowest count ∧
      resumeNonce pool selected sender = some (lowest + count) ∧
      ownOf selected sender = (queueFrom pool sender lowest count).filter
        fun entry => !request.inFlight entry.hash

theorem Queued.take {selected : List EvmPoolEntry} {entry : EvmPoolEntry}
    (queued : Queued pool request selected entry.sender)
    (offers : Offers pool request selected entry) :
    Queued pool request (selected ++ [entry]) entry.sender := by
  obtain ⟨nonce, passed, resumes, passes, found, grounded⟩ := offers
  obtain ⟨-, -, isNonce⟩ := EvmPool.get_mem found
  rw [Queued] at queued ⊢
  cases lowest : lowestNonce pool entry.sender with
  | none =>
    rw [lowest] at queued
    simp [resumeNonce, show ownOf selected entry.sender = [] from queued, lowest] at resumes
  | some low =>
    rw [lowest] at queued
    obtain ⟨count, unbroken, resumed, own⟩ := queued
    rw [resumes] at resumed
    cases resumed
    refine ⟨count + (passed + 1), ?_, ?_, ?_⟩
    · apply unbroken.add
      apply passes.unbroken.add
      intro step below
      rw [show step = 0 by omega, Nat.add_zero, found]
      simp
    · rw [resumeNonce_same, isNonce]
      congr 1
      omega
    · rw [ownOf_same, own, queueFrom_add, queueFrom_add, queueFrom_one found,
        filter_append, filter_append, passes.queue]
      simp [grounded]

end Queue

namespace Schedule

variable {keccak : List Byte → B256} {pool : EvmPool} {request : DrainRequest}
  {selected : List EvmPoolEntry} {stopped : List Address}

variable (schedule : Schedule keccak pool request selected stopped)
include schedule

theorem within_budgets : totalGas selected ≤ request.gasBudget.val ∧
      totalBytes (selected.map EvmPoolEntry.rawRlp) ≤ request.byteBudget := by
  induction schedule with
  | start => exact ⟨Nat.zero_le _, Nat.zero_le _⟩
  | take _ _ _ fits _ =>
    refine ⟨?_, ?_⟩
    · rw [totalGas_append, totalGas_singleton]
      exact fits.gas
    · rw [map_append, totalBytes_append, map_singleton, totalBytes_singleton]
      exact fits.bytes
  | stop _ _ _ _ ih => exact ih

theorem within_share {cap : U64} (isCap : cap ∈ request.senderGasCap) {sender : Address}
    (several : 2 ≤ (ownOf selected sender).length) :
    totalGas (ownOf selected sender) ≤ cap.val := by
  induction schedule with
  | start => simp at several
  | @take selected stopped entry _ _ _ fits ih =>
    by_cases same : entry.sender = sender
    · subst same
      rw [ownOf_same] at several ⊢
      rw [totalGas_append, totalGas_singleton]
      apply fits.share cap isCap
      intro none'
      simp [none'] at several
    · rw [ownOf_other same] at several ⊢
      exact ih several
  | stop _ _ _ _ ih => exact ih several

theorem mem {entry : EvmPoolEntry} (member : entry ∈ selected) :
    entry ∈ pool.entries ∧ request.inFlight entry.hash = false ∧ PaysBaseFee request entry := by
  induction schedule with
  | start => cases member
  | take _ greatest pays _ ih =>
    rcases mem_append.mp member with earlier | here
    · exact ih earlier
    · rw [mem_singleton.mp here]
      obtain ⟨nonce, count, -, -, found, grounded⟩ := greatest.1
      exact ⟨(EvmPool.get_mem found).1, grounded, pays⟩
  | stop _ _ _ _ ih => exact ih member

theorem queued (sender : Address) : Queued pool request selected sender := by
  induction schedule with
  | start =>
    rw [Queued]
    cases lowest : lowestNonce pool sender with
    | none => rfl
    | some low =>
      refine ⟨0, fun step below => absurd below (Nat.not_lt_zero _), ?_, rfl⟩
      simpa [resumeNonce] using lowest
  | @take selected stopped entry _ greatest _ _ ih =>
    by_cases same : entry.sender = sender
    · subst same
      exact ih.take greatest.1
    · rw [Queued, ownOf_other same, resumeNonce_other same]
      exact ih
  | stop _ _ _ _ ih => exact ih

end Schedule

end TorusHyperBft.Mempool
