/-
# The LST token

`contracts/lst_token/src/contract.rs`.  The token is `cw20_base` but for burning:
a burn, of one's own tokens or of another's, sends `CheckSlashing` to the hub.

`cw20_base` is not in the repository.  `Cw20Base` is what the contracts rely on
of it: that mints and burns are what changes the total supply, and that only the
minter mints.  `Token.ledger` is an instance that keeps balances and allowances.
-/

import BabyLst.Common.Types
import BabyLst.Lib.MapSum

namespace BabyLst

/-- What a message of the token mints. -/
def Cw20Msg.minted : Cw20Msg → ℕ
  | .mint _ amount => amount
  | _ => 0

/-- What a message of the token burns. -/
def Cw20Msg.burned : Cw20Msg → ℕ
  | .burn amount => amount
  | .burnFrom _ amount => amount
  | _ => 0

/-- **`cw20_base`**, over a type `T` of its storage. -/
structure Cw20Base (T : Type) where
  totalSupply : T → ℕ
  balance : T → Addr → ℕ
  /-- The allowance of an owner to a spender. -/
  allowance : T → Addr → Addr → ℕ
  minter : T → Option Addr
  /-- The handler of a message from a sender. -/
  execute : T → Env → Addr → Cw20Msg → Exec T
  /-- Only mints and burns change the supply. -/
  supply_eq : ∀ {t t' : T} {env : Env} {sender : Addr} {msg : Cw20Msg},
    execute t env sender msg = .ok t' → totalSupply t' + msg.burned = totalSupply t + msg.minted
  /-- Only the minter mints. -/
  mint_auth : ∀ {t t' : T} {env : Env} {sender recipient : Addr} {amount : ℕ},
    execute t env sender (.mint recipient amount) = .ok t' → minter t = some sender
  /-- None of the messages changes the minter. -/
  minter_eq : ∀ {t t' : T} {env : Env} {sender : Addr} {msg : Cw20Msg},
    execute t env sender msg = .ok t' → minter t' = minter t

namespace Token

/-- The token's storage: `HUB_CONTRACT`, and that of `cw20_base`. -/
structure Storage (T : Type) where
  hubContract : Addr
  cw20 : T

variable {T : Type}

/-- `build_check_slashing_sub_msg`. -/
def buildCheckSlashingSubMsg (st : Storage T) : CosmosMsg :=
  .wasmExecute st.hubContract (.hub .checkSlashing) []

/-- The messages of the response: a burn checks for slashing, and `cw20_base`
hands what is sent to a contract over to it. -/
def messagesOf (st : Storage T) (sender : Addr) : Cw20Msg → List CosmosMsg
  | .burn _ => [buildCheckSlashingSubMsg st]
  | .burnFrom _ _ => [buildCheckSlashingSubMsg st]
  | .send contract amount msg => [.wasmExecute contract (.hub (.receive ⟨sender, amount, msg⟩)) []]
  | .sendFrom _ contract amount msg =>
    [.wasmExecute contract (.hub (.receive ⟨sender, amount, msg⟩)) []]
  | _ => []

/-- `execute`. -/
def execute (base : Cw20Base T) (st : Storage T) (env : Env) (info : MessageInfo)
    (msg : Cw20Msg) : Exec (Storage T × List CosmosMsg) := do
  let cw20 ← base.execute st.cw20 env info.sender msg
  return ({ st with cw20 := cw20 }, messagesOf st info.sender msg)

open Lib

theorem execute_ok {base : Cw20Base T} {st st' : Storage T} {env : Env} {info : MessageInfo}
    {msg : Cw20Msg} {messages : List CosmosMsg}
    (h : execute base st env info msg = .ok (st', messages)) :
    base.execute st.cw20 env info.sender msg = .ok st'.cw20 ∧ st'.hubContract = st.hubContract ∧
      messages = messagesOf st info.sender msg := by
  simp only [execute, bind_eq_ok, pure_eq_ok, Prod.mk.injEq] at h
  obtain ⟨cw20, h, rfl, rfl⟩ := h
  exact ⟨h, rfl, rfl⟩

/-! ### A ledger -/

/-- A token that keeps balances and allowances. -/
structure Ledger where
  supply : ℕ
  minter : Option Addr
  balances : Std.ExtTreeMap Addr ℕ
  allowances : Std.ExtTreeMap (Addr × Addr) ℕ pairCmp

namespace Ledger

/-- The balance of an account. -/
def balance (t : Ledger) (a : Addr) : ℕ := t.balances[a]?.getD 0

/-- The allowance of an owner to a spender. -/
def allowance (t : Ledger) (owner spender : Addr) : ℕ := t.allowances[(owner, spender)]?.getD 0

/-- Tokens leave an account. -/
def debit (t : Ledger) (a : Addr) (amount : ℕ) : Exec Ledger :=
  if amount ≤ t.balance a then .ok { t with balances := t.balances.insert a (t.balance a - amount) }
  else .error (.external "insufficient tokens")

/-- Tokens reach an account. -/
def credit (t : Ledger) (a : Addr) (amount : ℕ) : Ledger :=
  { t with balances := t.balances.insert a (t.balance a + amount) }

/-- An allowance is set. -/
def setAllowance (t : Ledger) (owner spender : Addr) (amount : ℕ) : Ledger :=
  { t with allowances := t.allowances.insert (owner, spender) amount }

/-- A spender uses its allowance. -/
def spend (t : Ledger) (owner spender : Addr) (amount : ℕ) : Exec Ledger :=
  if amount ≤ t.allowance owner spender then
    .ok (t.setAllowance owner spender (t.allowance owner spender - amount))
  else .error (.external "no allowance")

/-- Tokens move from an account to another. -/
def move (t : Ledger) (owner recipient : Addr) (amount : ℕ) : Exec Ledger := do
  let t ← t.debit owner amount
  return t.credit recipient amount

/-- Tokens are burned; there are at least as many as an account holds. -/
def destroy (t : Ledger) (owner : Addr) (amount : ℕ) : Exec Ledger := do
  let t ← t.debit owner amount
  let supply ← checkedSub t.supply amount
  return { t with supply := supply }

/-- The handler of a message. -/
def execute (t : Ledger) (_ : Env) (sender : Addr) : Cw20Msg → Exec Ledger
  | .transfer recipient amount => t.move sender recipient amount
  | .send contract amount _ => t.move sender contract amount
  | .transferFrom owner recipient amount => do
    let t ← t.spend owner sender amount
    t.move owner recipient amount
  | .sendFrom owner contract amount _ => do
    let t ← t.spend owner sender amount
    t.move owner contract amount
  | .increaseAllowance spender amount =>
    return t.setAllowance sender spender (t.allowance sender spender + amount)
  | .decreaseAllowance spender amount =>
    return t.setAllowance sender spender (t.allowance sender spender - amount)
  | .mint recipient amount => do
    require (t.minter = some sender) (.external "not the minter")
    return { t.credit recipient amount with supply := t.supply + amount }
  | .burn amount => t.destroy sender amount
  | .burnFrom owner amount => do
    let t ← t.spend owner sender amount
    t.destroy owner amount

variable {t t' : Ledger} {a b : Addr} {amount : ℕ}

/-- Neither the supply nor the minter differs. -/
def Same (t t' : Ledger) : Prop := t'.supply = t.supply ∧ t'.minter = t.minter

theorem debit_same (h : t.debit a amount = .ok t') : t.Same t' := by
  unfold debit at h
  split_ifs at h
  cases h
  exact ⟨rfl, rfl⟩

theorem spend_same (h : t.spend a b amount = .ok t') : t.Same t' := by
  unfold spend at h
  split_ifs at h
  cases h
  exact ⟨rfl, rfl⟩

theorem move_same (h : t.move a b amount = .ok t') : t.Same t' := by
  simp only [move, bind_eq_ok, pure_eq_ok] at h
  obtain ⟨t₁, h, rfl⟩ := h
  have hs : t.Same t₁ := debit_same h
  exact hs

theorem destroy_ok (h : t.destroy a amount = .ok t') :
    t'.supply + amount = t.supply ∧ t'.minter = t.minter := by
  simp only [destroy, bind_eq_ok, checkedSub_eq_ok, pure_eq_ok] at h
  obtain ⟨t₁, h₁, _, ⟨hle, rfl⟩, rfl⟩ := h
  obtain ⟨hs, hm⟩ := debit_same h₁
  refine ⟨?_, hm⟩
  dsimp only
  omega

theorem execute_supply {env : Env} {sender : Addr} {msg : Cw20Msg}
    (h : t.execute env sender msg = .ok t') :
    t'.supply + msg.burned = t.supply + msg.minted ∧ t'.minter = t.minter := by
  have same : ∀ {t t' : Ledger}, t.Same t' →
      t'.supply + 0 = t.supply + 0 ∧ t'.minter = t.minter := fun h => ⟨by rw [h.1], h.2⟩
  cases msg with
  | transfer => exact same (move_same h)
  | send => exact same (move_same h)
  | transferFrom =>
    simp only [execute, bind_eq_ok] at h
    obtain ⟨_, h₁, h₂⟩ := h
    have hs := spend_same h₁
    have hm := move_same h₂
    exact same ⟨hm.1.trans hs.1, hm.2.trans hs.2⟩
  | sendFrom =>
    simp only [execute, bind_eq_ok] at h
    obtain ⟨_, h₁, h₂⟩ := h
    have hs := spend_same h₁
    have hm := move_same h₂
    exact same ⟨hm.1.trans hs.1, hm.2.trans hs.2⟩
  | increaseAllowance =>
    cases h
    exact ⟨rfl, rfl⟩
  | decreaseAllowance =>
    cases h
    exact ⟨rfl, rfl⟩
  | mint =>
    simp only [execute, bind_eq_ok, require_eq_ok, pure_eq_ok] at h
    obtain ⟨_, -, rfl⟩ := h
    exact ⟨rfl, rfl⟩
  | burn =>
    have hd : t.destroy sender _ = .ok t' := h
    exact destroy_ok hd
  | burnFrom =>
    simp only [execute, bind_eq_ok] at h
    obtain ⟨_, h₁, h₂⟩ := h
    obtain ⟨hs, hm⟩ := spend_same h₁
    obtain ⟨hd, hm'⟩ := destroy_ok h₂
    exact ⟨hd.trans hs, hm'.trans hm⟩

end Ledger

/-- The ledger as a `cw20_base`. -/
def ledger : Cw20Base Ledger where
  totalSupply := Ledger.supply
  balance := Ledger.balance
  allowance := Ledger.allowance
  minter := Ledger.minter
  execute := Ledger.execute
  supply_eq h := (Ledger.execute_supply h).1
  mint_auth h := by
    simp only [Ledger.execute, bind_eq_ok, require_eq_ok] at h
    obtain ⟨_, hm, -⟩ := h
    exact hm
  minter_eq h := (Ledger.execute_supply h).2

end Token
end BabyLst
