import TorusHyperBft.OrderBook.Decode
import TorusHyperBft.Account.Row

namespace TorusHyperBft.Lockbox

open FixedPoint (fit checkedAdd maxRaw minRaw)
open OrderBook (IsI128 fpBytes readFp)
open Account (NativeBalance)

/-! Asset transfer between the EVM ledger, in wei, and the native ledger, in raw units. -/

abbrev Address := Fin (2 ^ 160)

abbrev Amount := { raw : Int // IsI128 raw }

def keccakEmpty : List Byte :=
  [0xc5, 0xd2, 0x46, 0x01, 0x86, 0xf7, 0x23, 0x3c, 0x92, 0x7e, 0x7d, 0xb2, 0xdc, 0xc7, 0x03, 0xc0,
    0xe5, 0x00, 0xb6, 0x53, 0xca, 0x82, 0x27, 0x3b, 0x7b, 0xfa, 0xd8, 0x04, 0x5d, 0x85, 0xa4, 0x70]

def weiPerNativeUnit : Nat := 10000000000

inductive CoreError where
  | insufficientEvmBalance (held need : Nat)
  | insufficientNativeBalance (held need : Int)
  | overflow (what : String)
  | borsh
  | state
deriving DecidableEq

/-- The rows of the two column families, under their addresses. -/
structure Ledgers where
  accounts : Address → Option (List Byte)
  nativeBalances : Address → Option (List Byte)

inductive Put where
  | account (address : Address) (value : List Byte)
  | nativeBalance (address : Address) (value : List Byte)

def Ledgers.put (ledgers : Ledgers) : Put → Ledgers
  | .account address value =>
    { ledgers with accounts := Function.update ledgers.accounts address (some value) }
  | .nativeBalance address value =>
    { ledgers with nativeBalances := Function.update ledgers.nativeBalances address (some value) }

/-- Which accesses of an operation the backend answers with an error. -/
structure Faults where
  balance : Bool := false
  account : Bool := false
  rebuild : Bool := false
  write : Bool := false

abbrev LockboxM := ExceptT CoreError (StateM Ledgers)

def getAccount (fault : Bool) (address : Address) : LockboxM (Option (List Byte)) := do
  if fault then throw .state
  return (← get).accounts address

def getNativeRow (fault : Bool) (address : Address) : LockboxM (Option (List Byte)) := do
  if fault then throw .state
  return (← get).nativeBalances address

def atomicWrite (fault : Bool) (ops : List Put) : LockboxM Unit := do
  if fault then throw .state
  modify fun ledgers => ops.foldl Ledgers.put ledgers

def balanceOf : Option (List Byte) → Nat
  | some data => if 32 ≤ data.length then fromBytes (data.take 32) else 0
  | none => 0

def getEvmBalance (fault : Bool) (address : Address) : LockboxM Nat := do
  return balanceOf (← getAccount fault address)

def freshAccount : List Byte := List.replicate 40 0 ++ keccakEmpty

def accountData : Option (List Byte) → List Byte
  | some data => if data.length = 72 then data else freshAccount
  | none => freshAccount

def buildEvmBalanceUpdate (fault : Bool) (address : Address) (newBalance : Nat) :
    LockboxM (List Byte) := do
  let data := accountData (← getAccount fault address)
  return toBytes 32 newBalance ++ data.drop 32

def nativeBalanceBytes (balance : NativeBalance) : List Byte :=
  1 :: (fpBytes balance.available ++ fpBytes balance.orderMargin)

def readNativeBalance : Reader NativeBalance := do
  let version ← Reader.number 1
  if version = 1 then
    let available ← readFp
    let orderMargin ← readFp
    return { available, orderMargin }
  else Reader.failure

def nativeBalanceOf : Option (List Byte) → Option NativeBalance
  | some data => readNativeBalance.whole data
  | none => some {}

def getNativeBalance (fault : Bool) (trader : Address) : LockboxM NativeBalance := do
  match nativeBalanceOf (← getNativeRow fault trader) with
  | some balance => return balance
  | none => throw .borsh

def fpToU256 (raw : Int) : Nat := if raw < 0 then 0 else raw.toNat

def fpToWei (raw : Int) : Nat := fpToU256 raw * weiPerNativeUnit % 2 ^ 256

def checkedCredit (balance amount : Int) : LockboxM Int :=
  match checkedAdd balance amount with
  | some total => return total
  | none => throw (.overflow "lockbox native credit overflows i128")

def depositToNative (faults : Faults) (trader : Address) (amount : Int) : LockboxM Unit := do
  if amount ≤ 0 then return
  let evmAmount := fpToWei amount
  let evmBalance ← getEvmBalance faults.account trader
  if evmBalance < evmAmount then throw (.insufficientEvmBalance evmBalance evmAmount)
  let nativeBal ← getNativeBalance faults.balance trader
  let available ← checkedCredit nativeBal.available amount
  let evmData ← buildEvmBalanceUpdate faults.rebuild trader (evmBalance - evmAmount)
  atomicWrite faults.write
    [.account trader evmData, .nativeBalance trader (nativeBalanceBytes { nativeBal with available })]

def withdrawFromNativeTo (faults : Faults) (sender receiver : Address) (amount : Int) : LockboxM Unit := do
  if amount ≤ 0 then return
  let nativeBal ← getNativeBalance faults.balance sender
  if nativeBal.available < amount then
    throw (.insufficientNativeBalance nativeBal.available amount)
  let updatedBal := { nativeBal with available := nativeBal.available - amount }
  let evmAmount := fpToWei amount
  let evmBalance ← getEvmBalance faults.account receiver
  if 2 ^ 256 ≤ evmBalance + evmAmount then throw (.overflow "lockbox EVM credit overflows U256")
  let evmData ← buildEvmBalanceUpdate faults.rebuild receiver (evmBalance + evmAmount)
  atomicWrite faults.write
    [.nativeBalance sender (nativeBalanceBytes updatedBal), .account receiver evmData]

def withdrawFromNative (faults : Faults) (trader : Address) (amount : Int) : LockboxM Unit :=
  withdrawFromNativeTo faults trader trader amount

inductive Call where
  | depositToNative (trader : Address) (amount : Amount)
  | withdrawFromNative (trader : Address) (amount : Amount)
  | withdrawFromNativeTo (sender receiver : Address) (amount : Amount)

def call (faults : Faults) : Call → LockboxM Unit
  | .depositToNative trader amount => depositToNative faults trader amount
  | .withdrawFromNative trader amount => withdrawFromNative faults trader amount
  | .withdrawFromNativeTo sender receiver amount => withdrawFromNativeTo faults sender receiver amount

def outcome (faults : Faults) (made : Call) (ledgers : Ledgers) : Except CoreError Unit × Ledgers :=
  call faults made ledgers

section Reads

variable {α β : Type} {step : LockboxM α} {next : α → LockboxM β} {finds : Ledgers → α → Prop}
  {ledgers after : Ledgers} {result : Except CoreError β}

/-- The step leaves the ledgers alone, and what it returns satisfies `finds`. -/
def Reads (step : LockboxM α) (finds : Ledgers → α → Prop) : Prop :=
  ∀ ledgers, (∃ value, step ledgers = (.ok value, ledgers) ∧ finds ledgers value) ∨
    ∃ error, step ledgers = (.error error, ledgers)

theorem Reads.handsOn (reads : Reads step finds) (ran : (step >>= next) ledgers = (result, after)) :
    after = ledgers ∨ ∃ value, finds ledgers value ∧ next value ledgers = (result, after) := by
  simp only [bind, ExceptT.bind, ExceptT.mk, StateT.bind] at ran
  rcases reads ledgers with ⟨value, read, found⟩ | ⟨error, failed⟩
  · rw [read] at ran
    exact Or.inr ⟨value, found, ran⟩
  · rw [failed] at ran
    cases ran
    exact Or.inl rfl

theorem Reads.bind {found : Ledgers → β → Prop} (reads : Reads step finds)
    (rest : ∀ value, Reads (next value) fun ledgers result => finds ledgers value → found ledgers result) :
    Reads (step >>= next) found := by
  intro ledgers
  simp only [Bind.bind, ExceptT.bind, ExceptT.mk, StateT.bind]
  rcases reads ledgers with ⟨value, read, isFound⟩ | ⟨error, failed⟩
  · rw [read]
    rcases rest value ledgers with ⟨result, ran, gives⟩ | failed
    · exact Or.inl ⟨result, ran, gives isFound⟩
    · exact Or.inr failed
  · rw [failed]
    exact Or.inr ⟨error, rfl⟩

theorem getAccount_reads (fault : Bool) (address : Address) :
    Reads (getAccount fault address) fun ledgers row => row = ledgers.accounts address := by
  intro ledgers
  cases fault with
  | true => exact Or.inr ⟨.state, rfl⟩
  | false => exact Or.inl ⟨_, rfl, rfl⟩

theorem getNativeRow_reads (fault : Bool) (address : Address) :
    Reads (getNativeRow fault address) fun ledgers row => row = ledgers.nativeBalances address := by
  intro ledgers
  cases fault with
  | true => exact Or.inr ⟨.state, rfl⟩
  | false => exact Or.inl ⟨_, rfl, rfl⟩

theorem getEvmBalance_reads (fault : Bool) (address : Address) :
    Reads (getEvmBalance fault address) fun ledgers balance =>
      balance = balanceOf (ledgers.accounts address) := by
  apply (getAccount_reads fault address).bind
  intro row ledgers
  refine Or.inl ⟨_, rfl, ?_⟩
  rintro rfl
  rfl

theorem buildEvmBalanceUpdate_reads (fault : Bool) (address : Address) (newBalance : Nat) :
    Reads (buildEvmBalanceUpdate fault address newBalance) fun ledgers data =>
      data = toBytes 32 newBalance ++ (accountData (ledgers.accounts address)).drop 32 := by
  apply (getAccount_reads fault address).bind
  intro row ledgers
  refine Or.inl ⟨_, rfl, ?_⟩
  rintro rfl
  rfl

theorem getNativeBalance_reads (fault : Bool) (trader : Address) :
    Reads (getNativeBalance fault trader) fun ledgers balance =>
      nativeBalanceOf (ledgers.nativeBalances trader) = some balance := by
  apply (getNativeRow_reads fault trader).bind
  intro row ledgers
  cases read : nativeBalanceOf row with
  | none => exact Or.inr ⟨.borsh, rfl⟩
  | some balance =>
    refine Or.inl ⟨balance, rfl, ?_⟩
    rintro rfl
    exact read

theorem checkedCredit_reads (balance amount : Int) :
    Reads (checkedCredit balance amount) fun _ total =>
      total = balance + amount ∧ minRaw ≤ total ∧ total ≤ maxRaw := by
  intro ledgers
  simp only [checkedCredit]
  cases credited : checkedAdd balance amount with
  | none => exact Or.inr ⟨_, rfl⟩
  | some total =>
    obtain ⟨least, most, rfl⟩ := FixedPoint.fit_eq_some.mp credited
    exact Or.inl ⟨_, rfl, rfl, least, most⟩

theorem atomicWrite_inv {fault : Bool} {ops : List Put} {result : Except CoreError Unit}
    (ran : atomicWrite fault ops ledgers = (result, after)) :
    (after = ledgers ∧ ∃ error, result = .error error) ∨
      (after = ops.foldl Ledgers.put ledgers ∧ result = .ok ()) := by
  cases fault with
  | true =>
    cases ran
    exact Or.inl ⟨rfl, _, rfl⟩
  | false =>
    cases ran
    exact Or.inr ⟨rfl, rfl⟩

end Reads

section Moved

variable {faults : Faults} {ledgers after : Ledgers} {result : Except CoreError Unit}
  {trader sender receiver : Address} {amount : Int}

/-- The rows a transfer leaves: `wei` in the wallet and `balance` with the owner. -/
def Ledgers.moved (ledgers : Ledgers) (wallet : Address) (wei : Nat) (owner : Address)
    (balance : NativeBalance) : Ledgers where
  accounts := Function.update ledgers.accounts wallet
    (some (toBytes 32 wei ++ (accountData (ledgers.accounts wallet)).drop 32))
  nativeBalances := Function.update ledgers.nativeBalances owner (some (nativeBalanceBytes balance))

theorem depositToNative_inv (ran : depositToNative faults trader amount ledgers = (result, after)) :
    after = ledgers ∨ (result = .ok () ∧ 0 < amount ∧
      fpToWei amount ≤ balanceOf (ledgers.accounts trader) ∧
      ∃ balance, nativeBalanceOf (ledgers.nativeBalances trader) = some balance ∧
        minRaw ≤ balance.available + amount ∧ balance.available + amount ≤ maxRaw ∧
        after = ledgers.moved trader (balanceOf (ledgers.accounts trader) - fpToWei amount) trader
          { balance with available := balance.available + amount }) := by
  unfold depositToNative at ran
  by_cases nothing : amount ≤ 0
  · rw [if_pos nothing] at ran
    cases ran
    exact Or.inl rfl
  rw [if_neg nothing] at ran
  rcases (getEvmBalance_reads _ _).handsOn ran with same | ⟨_, rfl, ran⟩
  · exact Or.inl same
  by_cases short : balanceOf (ledgers.accounts trader) < fpToWei amount
  · rw [if_pos short] at ran
    cases ran
    exact Or.inl rfl
  rw [if_neg short] at ran
  rcases (getNativeBalance_reads _ _).handsOn ran with same | ⟨balance, read, ran⟩
  · exact Or.inl same
  rcases (checkedCredit_reads _ _).handsOn ran with same | ⟨_, ⟨rfl, least, most⟩, ran⟩
  · exact Or.inl same
  rcases (buildEvmBalanceUpdate_reads _ _ _).handsOn ran with same | ⟨_, rfl, ran⟩
  · exact Or.inl same
  rcases atomicWrite_inv ran with ⟨same, -⟩ | ⟨rfl, rfl⟩
  · exact Or.inl same
  · exact Or.inr ⟨rfl, by omega, by omega, balance, read, least, most, rfl⟩

theorem withdrawFromNativeTo_inv
    (ran : withdrawFromNativeTo faults sender receiver amount ledgers = (result, after)) :
    after = ledgers ∨ (result = .ok () ∧ 0 < amount ∧
      balanceOf (ledgers.accounts receiver) + fpToWei amount < 2 ^ 256 ∧
      ∃ balance, nativeBalanceOf (ledgers.nativeBalances sender) = some balance ∧
        amount ≤ balance.available ∧
        after = ledgers.moved receiver (balanceOf (ledgers.accounts receiver) + fpToWei amount) sender
          { balance with available := balance.available - amount }) := by
  unfold withdrawFromNativeTo at ran
  by_cases nothing : amount ≤ 0
  · rw [if_pos nothing] at ran
    cases ran
    exact Or.inl rfl
  rw [if_neg nothing] at ran
  rcases (getNativeBalance_reads _ _).handsOn ran with same | ⟨balance, read, ran⟩
  · exact Or.inl same
  by_cases short : balance.available < amount
  · rw [if_pos short] at ran
    cases ran
    exact Or.inl rfl
  rw [if_neg short] at ran
  rcases (getEvmBalance_reads _ _).handsOn ran with same | ⟨_, rfl, ran⟩
  · exact Or.inl same
  by_cases beyond : 2 ^ 256 ≤ balanceOf (ledgers.accounts receiver) + fpToWei amount
  · rw [if_pos beyond] at ran
    cases ran
    exact Or.inl rfl
  rw [if_neg beyond] at ran
  rcases (buildEvmBalanceUpdate_reads _ _ _).handsOn ran with same | ⟨_, rfl, ran⟩
  · exact Or.inl same
  rcases atomicWrite_inv ran with ⟨same, -⟩ | ⟨rfl, rfl⟩
  · exact Or.inl same
  · exact Or.inr ⟨rfl, by omega, by omega, balance, read, by omega, rfl⟩

end Moved

section Read

variable {balance : NativeBalance} {row : Option (List Byte)}

theorem signed_isI128 {number : Nat} (fits : number < 256 ^ 16) : IsI128
    (OrderBook.signed number) := by
  unfold OrderBook.signed IsI128
  split <;> omega

theorem readFp_isI128 {input rest : List Byte} {raw : Int}
    (read : readFp input = some (raw, rest)) :
    IsI128 raw := by
  simp only [readFp, Reader.number, Reader.bytes, bind, StateT.bind, pure, StateT.pure] at read
  split at read
  · rename_i enough
    cases read
    apply signed_isI128
    have bound := fromBytes_lt (input.take 16)
    rwa [List.length_take_of_le enough] at bound
  · cases read

theorem readNativeBalance_isI128 {input rest : List Byte}
    (read : readNativeBalance input = some (balance, rest)) :
    IsI128 balance.available ∧ IsI128 balance.orderMargin := by
  simp only [readNativeBalance, bind, StateT.bind, Option.bind_eq_some_iff] at read
  obtain ⟨⟨version, first⟩, -, read⟩ := read
  by_cases current : version = 1
  · simp only [if_pos current, StateT.bind, bind, Option.bind_eq_some_iff] at read
    obtain ⟨⟨available, second⟩, readAvailable, ⟨orderMargin, third⟩, readMargin, ended⟩ := read
    cases ended
    exact ⟨readFp_isI128 readAvailable, readFp_isI128 readMargin⟩
  · rw [if_neg current] at read
    cases read

theorem nativeBalanceOf_isI128 (read : nativeBalanceOf row = some balance) :
    IsI128 balance.available ∧ IsI128 balance.orderMargin := by
  cases row with
  | none =>
    cases read
    unfold IsI128
    decide
  | some data =>
    simp only [nativeBalanceOf, Reader.whole] at read
    split at read
    · rename_i value taken
      cases read
      exact readNativeBalance_isI128 taken
    · cases read

theorem nativeBalanceOf_bytes (available : IsI128 balance.available)
    (orderMargin : IsI128 balance.orderMargin) :
    nativeBalanceOf (some (nativeBalanceBytes balance)) = some balance := by
  have taken : Reader.Takes readNativeBalance (nativeBalanceBytes balance) balance := by
    apply Reader.Takes.bind (Reader.takes_byte 1)
    apply Reader.Takes.bind (OrderBook.takes_fp available)
    exact (OrderBook.takes_fp orderMargin).last
  exact taken.whole

theorem balanceOf_bytes {wei : Nat} (fits : wei < 2 ^ 256) (rest : List Byte) :
    balanceOf (some (toBytes 32 wei ++ rest)) = wei := by
  have enough : 32 ≤ (toBytes 32 wei ++ rest).length := by simp
  have front : (toBytes 32 wei ++ rest).take 32 = toBytes 32 wei := by
    apply List.take_left'
    exact toBytes_length 32 wei
  rw [balanceOf, if_pos enough, front]
  exact fromBytes_toBytes (by omega)

theorem balanceOf_lt (row : Option (List Byte)) : balanceOf row < 2 ^ 256 := by
  unfold balanceOf
  split
  · rename_i data
    split
    · rename_i enough
      have bound := fromBytes_lt (data.take 32)
      rwa [List.length_take_of_le enough] at bound
    · decide
  · decide

theorem fpToWei_pos {amount : Int} (positive : 0 < amount) (fits : IsI128 amount) :
    (fpToWei amount : Int) = weiPerNativeUnit * amount := by
  have notNegative : ¬ amount < 0 := by omega
  have small := fits.2
  simp only [fpToWei, fpToU256, if_neg notNegative, weiPerNativeUnit]
  omega

end Read

namespace Ledgers

def wei (ledgers : Ledgers) (address : Address) : Nat := balanceOf (ledgers.accounts address)

def native (ledgers : Ledgers) (address : Address) : NativeBalance :=
  (nativeBalanceOf (ledgers.nativeBalances address)).getD {}

def total (ledgers : Ledgers) : Int :=
  ∑ address, (ledgers.wei address : Int) +
    weiPerNativeUnit * ∑ address, (ledgers.native address).available

end Ledgers

/-- Nothing is made or lost, and a failed transfer writes nothing. -/
structure Settles (before : Ledgers) (result : Except CoreError Unit) (after : Ledgers) : Prop where
  total : after.total = before.total
  available : ∀ address, 0 ≤ (before.native address).available → 0 ≤ (after.native address).available
  orderMargin : ∀ address, (after.native address).orderMargin = (before.native address).orderMargin
  failed : ∀ error, result = .error error → after = before

section Settles

variable {faults : Faults} {ledgers after : Ledgers} {result : Except CoreError Unit}
  {wallet owner : Address} {wei : Nat} {balance : NativeBalance}

theorem Settles.refl (ledgers : Ledgers) (result : Except CoreError Unit) :
    Settles ledgers result ledgers :=
  ⟨rfl, fun _ nonneg => nonneg, fun _ => rfl, fun _ _ => rfl⟩

theorem wei_moved (fits : wei < 2 ^ 256) :
    (ledgers.moved wallet wei owner balance).wei = Function.update ledgers.wei wallet wei := by
  funext address
  by_cases same : address = wallet
  · subst same
    simp only [Ledgers.wei, Ledgers.moved, Function.update_self]
    exact balanceOf_bytes fits _
  · simp only [Ledgers.wei, Ledgers.moved, Function.update_of_ne same]

theorem native_moved (available : IsI128 balance.available)
    (orderMargin : IsI128 balance.orderMargin) :
    (ledgers.moved wallet wei owner balance).native = Function.update ledgers.native owner balance := by
  funext address
  by_cases same : address = owner
  · subst same
    simp only [Ledgers.native, Ledgers.moved, Function.update_self]
    rw [nativeBalanceOf_bytes available orderMargin, Option.getD_some]
  · simp only [Ledgers.native, Ledgers.moved, Function.update_of_ne same]

theorem sum_update {α : Type} [Fintype α] [DecidableEq α] (held : α → Int) (place : α)
    (value : Int) :
    ∑ other, Function.update held place value other = ∑ other, held other - held place + value := by
  rw [Finset.sum_update_of_mem (Finset.mem_univ place)]
  have split := Finset.add_sum_erase Finset.univ held (Finset.mem_univ place)
  rw [Finset.sdiff_singleton_eq_erase]
  omega

theorem settles_moved {before : NativeBalance} (fits : wei < 2 ^ 256)
    (read : nativeBalanceOf (ledgers.nativeBalances owner) = some before)
    (available : IsI128 balance.available) (orderMargin : balance.orderMargin = before.orderMargin)
    (nonneg : 0 ≤ before.available → 0 ≤ balance.available)
    (exchanged : (wei : Int) - ledgers.wei wallet =
      weiPerNativeUnit * (before.available - balance.available)) :
    Settles ledgers (.ok ()) (ledgers.moved wallet wei owner balance) := by
  have held : ledgers.native owner = before := by rw [Ledgers.native, read, Option.getD_some]
  have marginFits : IsI128 balance.orderMargin := by
    rw [orderMargin]
    exact (nativeBalanceOf_isI128 read).2
  have native := @native_moved ledgers wallet owner wei balance available marginFits
  refine ⟨?_, ?_, ?_, fun error failed => nomatch failed⟩
  · have weiSum : ∑ address, ((Function.update ledgers.wei wallet wei address : Nat) : Int) =
        ∑ address, (ledgers.wei address : Int) - ledgers.wei wallet + wei := by
      rw [← sum_update]
      apply Finset.sum_congr rfl
      intro address _
      exact Function.apply_update (fun _ (value : Nat) => (value : Int)) _ _ _ _
    have nativeSum : ∑ address, (Function.update ledgers.native owner balance address).available =
        ∑ address, (ledgers.native address).available - before.available + balance.available := by
      rw [← held, ← sum_update]
      apply Finset.sum_congr rfl
      intro address _
      exact Function.apply_update (fun _ (value : NativeBalance) => value.available) _ _ _ _
    rw [Ledgers.total, wei_moved fits, native, weiSum, nativeSum, Ledgers.total]
    linear_combination exchanged
  · intro address
    rw [native]
    by_cases same : address = owner
    · subst same
      rw [Function.update_self, held]
      exact nonneg
    · rw [Function.update_of_ne same]
      exact id
  · intro address
    rw [native]
    by_cases same : address = owner
    · subst same
      rw [Function.update_self, held]
      exact orderMargin
    · rw [Function.update_of_ne same]

theorem depositToNative_settles {trader : Address} {amount : Int} (isAmount : IsI128 amount)
    (ran : depositToNative faults trader amount ledgers = (result, after)) :
    Settles ledgers result after := by
  rcases depositToNative_inv ran with rfl | ⟨rfl, positive, enough, balance, read, least, most, rfl⟩
  · exact .refl _ _
  · have wei := fpToWei_pos positive isAmount
    have bound := balanceOf_lt (ledgers.accounts trader)
    apply settles_moved (by omega) read
    · unfold IsI128
      simp only [minRaw, maxRaw] at least most ⊢
      omega
    · rfl
    · intro nonneg
      simp only
      omega
    · simp only [Ledgers.wei]
      rw [Int.ofNat_sub enough, wei]
      simp only [weiPerNativeUnit]
      omega

theorem withdrawFromNativeTo_settles {sender receiver : Address} {amount : Int}
    (isAmount : IsI128 amount)
    (ran : withdrawFromNativeTo faults sender receiver amount ledgers = (result, after)) :
    Settles ledgers result after := by
  rcases withdrawFromNativeTo_inv ran with rfl | ⟨rfl, positive, fits, balance, read, enough, rfl⟩
  · exact .refl _ _
  · have wei := fpToWei_pos positive isAmount
    have range := (nativeBalanceOf_isI128 read).1
    apply settles_moved fits read
    · unfold IsI128 at range ⊢
      simp only
      omega
    · rfl
    · intro _
      simp only
      omega
    · simp only [Ledgers.wei]
      rw [Int.natCast_add, wei]
      simp only [weiPerNativeUnit]
      omega

theorem outcome_settles (faults : Faults) (made : Call) (ledgers : Ledgers) :
    Settles ledgers (outcome faults made ledgers).1 (outcome faults made ledgers).2 := by
  cases made with
  | depositToNative trader amount => exact depositToNative_settles amount.2 rfl
  | withdrawFromNative trader amount => exact withdrawFromNativeTo_settles amount.2 rfl
  | withdrawFromNativeTo sender receiver amount => exact withdrawFromNativeTo_settles amount.2 rfl

end Settles

/-- The operations one after the other: each with the ledgers it met, how it ended and what it
left. -/
def run (ledgers : Ledgers) : List (Faults × Call) → List (Ledgers × Except CoreError Unit × Ledgers)
  | [] => []
  | (faults, made) :: later =>
    (ledgers, outcome faults made ledgers) :: run (outcome faults made ledgers).2 later

/-- Whatever the operations and however the backend fails, each one settles, and the value and
the signs the ledgers started with hold after every one of them. -/
theorem run_settles (ledgers : Ledgers) (calls : List (Faults × Call)) :
    ∀ step ∈ run ledgers calls, Settles step.1 step.2.1 step.2.2 ∧ step.2.2.total = ledgers.total ∧
      ∀ address, 0 ≤ (ledgers.native address).available →
        0 ≤ (step.2.2.native address).available := by
  induction calls generalizing ledgers with
  | nil =>
    intro step member
    cases member
  | cons first later ih =>
    intro step member
    have settles := outcome_settles first.1 first.2 ledgers
    rcases List.mem_cons.mp member with rfl | member
    · exact ⟨settles, settles.total, settles.available⟩
    · obtain ⟨settled, total, available⟩ := ih _ step member
      refine ⟨settled, total.trans settles.total, ?_⟩
      intro address nonneg
      exact available address (settles.available address nonneg)

def unitWallet : Ledgers where
  accounts address :=
    if address = 1 then some (toBytes 32 weiPerNativeUnit ++ List.replicate 40 0) else none
  nativeBalances _ := none

def unitDeposit : Call := .depositToNative 1 ⟨1, by unfold IsI128; decide⟩

theorem run_settles_unit :
    Settles unitWallet (outcome {} unitDeposit unitWallet).1 (outcome {} unitDeposit unitWallet).2 ∧
      (outcome {} unitDeposit unitWallet).2.total = unitWallet.total ∧
      0 ≤ ((outcome {} unitDeposit unitWallet).2.native 1).available := by
  obtain ⟨settles, total, available⟩ := run_settles unitWallet [({}, unitDeposit)]
    (unitWallet, outcome {} unitDeposit unitWallet) List.mem_cons_self
  exact ⟨settles, total, available 1 (Int.le_refl 0)⟩

end TorusHyperBft.Lockbox
