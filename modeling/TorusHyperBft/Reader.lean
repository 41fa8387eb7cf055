import TorusHyperBft.Bytes

namespace TorusHyperBft

/-! Readers that take values off the front of some bytes, and what they take of written ones. -/

abbrev Reader (α : Type) := StateT (List Byte) Option α

namespace Reader

variable {α β : Type}

def bytes (width : Nat) : Reader (List Byte) := fun input =>
  if width ≤ input.length then some (input.take width, input.drop width) else none

def number (width : Nat) : Reader Nat := do
  let read ← bytes width
  return fromBytes read

def failure : Reader α := fun _ => none

def repeatFold (reader : Reader α) (step : β → α → β) : Nat → β → Reader β
  | 0, state => pure state
  | count + 1, state => do
      let value ← reader
      repeatFold reader step count (step state value)

def whole (reader : Reader α) (input : List Byte) : Option α :=
  match reader input with
  | some (value, []) => some value
  | _ => none

/-- The reader takes exactly these bytes and gives the value. -/
def Takes (reader : Reader α) (written : List Byte) (value : α) : Prop :=
  ∀ rest, reader (written ++ rest) = some (value, rest)

section Takes

variable {reader : Reader α} {next : α → Reader β} {written more : List Byte} {value : α} {result : β}

theorem Takes.pure (value : α) : Takes (Pure.pure value : Reader α) [] value := fun _ => rfl

theorem Takes.bind (first : Takes reader written value) (second : Takes (next value) more result) :
    Takes (reader >>= next) (written ++ more) result := by
  intro rest
  rw [List.append_assoc]
  change (reader (written ++ (more ++ rest))).bind (fun read => next read.1 read.2) = _
  rw [first]
  exact second rest

theorem Takes.last {return' : α → β} (first : Takes reader written value) :
    Takes (reader >>= fun read => Pure.pure (return' read)) written (return' value) := by
  have read := @Takes.bind α β reader (fun read => Pure.pure (return' read)) written [] value _ first
    (Takes.pure (return' value))
  rwa [List.append_nil] at read

theorem takes_bytes (written : List Byte) : Takes (bytes written.length) written written := by
  intro rest
  simp [bytes]

theorem takes_number {width number' : Nat} (fits : number' < 256 ^ width) :
    Takes (number width) (toBytes width number') number' := by
  have read := takes_bytes (toBytes width number')
  rw [toBytes_length] at read
  have numbered := @Takes.last (List Byte) Nat _ _ _ fromBytes read
  rwa [fromBytes_toBytes fits] at numbered

theorem takes_byte (byte : Byte) : Takes (number 1) [byte] byte.val := by
  have read := takes_bytes [byte]
  have numbered := @Takes.last (List Byte) Nat _ _ _ fromBytes read
  have spelled : fromBytes [byte] = byte.val := by simp [fromBytes]
  rwa [spelled] at numbered

theorem Takes.whole (takes : Takes reader written value) : reader.whole written = some value := by
  have read := takes []
  rw [List.append_nil] at read
  unfold Reader.whole
  rw [read]

theorem takes_repeatFold {γ : Type} {step : β → α → β} {write : γ → List Byte} {read : γ → α}
    {values : List γ} (each : ∀ value ∈ values, Takes reader (write value) (read value)) (state : β) :
    Takes (repeatFold reader step values.length state) (values.flatMap write)
      (values.foldl (fun state value => step state (read value)) state) := by
  induction values generalizing state with
  | nil => exact .pure state
  | cons value values ih =>
    rw [List.flatMap_cons, List.length_cons]
    exact (each value List.mem_cons_self).bind
      (ih (fun later member => each later (List.mem_cons_of_mem _ member)) (step state (read value)))

end Takes

end Reader

theorem fromBytes_toBytes_mod (width value : Nat) :
    fromBytes (toBytes width value) = value % 256 ^ width := by
  have cut : toBytes width value = toBytes width (value % 256 ^ width) := by
    cases width with
    | zero => rfl
    | succ width =>
      have positive : 0 < 256 ^ width := Nat.pow_pos (by decide)
      simp only [toBytes]
      congr 2
      · rw [Nat.pow_succ, Nat.mod_mul_right_div_self, Nat.mod_mod]
      · rw [Nat.pow_succ, Nat.mod_mod_of_dvd _ (Nat.dvd_mul_right _ _)]
  rw [cut]
  exact fromBytes_toBytes (Nat.mod_lt _ (Nat.pow_pos (by decide)))

end TorusHyperBft
