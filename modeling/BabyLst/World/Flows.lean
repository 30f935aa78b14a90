/-
# The two ways to unstake

A user unstakes by a message to the hub, which checks the user's balance and the
allowance and burns from the user, or by sending tokens to the hub, which burns
what it was sent.  The first calls the hub before the token, the second the token
before the hub.  What the hub asks of the token on the way differs, and the
ledger of the token is in between another one; yet both flows end in the same
world but for that ledger, or fail alike (`unstake_flows_agree`).
-/

import BabyLst.World.Closing

namespace BabyLst

open Lib Std

variable {T : Type} {d : Deployment T}

/-- The world with another ledger of the token. -/
def World.withLedger (w : World T) (t : T) : World T :=
  { w with token := { w.token with cw20 := t } }

/-! ### The request -/

namespace Hub

variable {q : Querier} {st : Storage} {env : Env} {amount : ℕ} {sender : String}

/-- The part of `execute_unstake` before the burn: the request is noted, and the
batch closed if it is due. -/
def noteRequest (q : Querier) (st : Storage) (env : Env) (amount : ℕ) (sender : String) :
    Exec (Storage × List CosmosMsg) := do
  let (st, batch) ← updateUnstakeBatchWaitList q st st.currentBatch sender amount
  let (st, _, messages, _) ← checkForUnstakeBatchEpochCompletion q st env batch
  return (st, messages)

/-- What a noted request is. -/
theorem noteRequest_ok {st' : Storage} {messages : List CosmosMsg}
    (h : noteRequest q st env amount sender = .ok (st', messages)) :
    st'.config = st.config ∧
      ∀ m ∈ messages, ∃ v n,
        m = .wrappedUndelegate env.contract v ⟨st.parameters.stakingCoinDenom, n⟩ := by
  simp only [noteRequest, updateUnstakeBatchWaitList, bind_eq_ok, strictAdd_eq_ok,
    toCheckedAddress_eq_ok, pure_eq_ok, Prod.exists, Prod.mk.injEq] at h
  obtain ⟨_, _, ⟨_, ⟨-, rfl⟩, _, ⟨-, rfl⟩, n, -, rfl, rfl⟩, st₂, batch, ms, events, hcomp, rfl,
    rfl⟩ := h
  have hc := checkForUnstakeBatchEpochCompletion_ok hcomp
  cases hc with
  | stillOpen => exact ⟨rfl, by simp⟩
  | closed =>
    refine ⟨rfl, fun m hm => ?_⟩
    obtain ⟨e, -, rfl⟩ := List.mem_map.1 hm
    exact ⟨_, _, rfl⟩

/-- **Both flows note the request**, and ask the token for their burn. -/
theorem executeUnstake_eq {flow : UnstakeType} {token : Addr} {burn : Cw20Msg}
    (token_eq : st.config.lstToken = some token)
    (burn_eq : burnMsgOf q env token amount sender flow = .ok burn) :
    (executeUnstake q st env amount sender flow).map (fun r => (r.1, r.2.messages)) =
      (noteRequest q st env amount sender).map
        fun r => (r.1, r.2 ++ [.wasmExecute token (.token burn) []]) := by
  cases hlist : updateUnstakeBatchWaitList q st st.currentBatch sender amount with
  | error e => simp [executeUnstake, noteRequest, hlist, bind, Except.bind, Except.map]
  | ok r =>
    obtain ⟨st₁, batch⟩ := r
    cases hcomp : checkForUnstakeBatchEpochCompletion q st₁ env batch with
    | error e => simp [executeUnstake, noteRequest, hlist, hcomp, bind, Except.bind, Except.map]
    | ok r =>
      obtain ⟨st₂, batch', messages, events⟩ := r
      have hnoted : noteRequest q st env amount sender = .ok (st₂, messages) := by
        simp only [noteRequest, hlist, hcomp, bind, Except.bind]
        rfl
      have htoken : st₂.config.lstToken = some token := by
        rw [(noteRequest_ok hnoted).1, token_eq]
      rw [hnoted]
      simp only [executeUnstake, hlist, hcomp, htoken, okOr, burn_eq, bind, Except.bind]
      rfl

/-- A request that a running hub is asked for. -/
def request (q : Querier) (st : Storage) (env : Env) (amount : ℕ) (sender : String) :
    Exec (Storage × List CosmosMsg) := do
  require (st.parameters.paused = false) HubError.paused.fault
  noteRequest q st env amount sender

/-- **A message that is a request**, by the burn it asks for. -/
def IsRequest (q : Querier) (st : Storage) (env : Env) (info : MessageInfo) (msg : HubMsg)
    (amount : ℕ) (sender : String) (token : Addr) (burn : Cw20Msg) : Prop :=
  (execute q st env info msg).map (fun r => (r.1, r.2.messages)) =
    (request q st env amount sender).map
      fun r => (r.1, r.2 ++ [.wasmExecute token (.token burn) []])

/-- A user who has the tokens and the allowance asks the hub. -/
theorem isRequest_unstake {token : Addr} {funds : List Coin} {balance allowance : ℕ}
    (token_eq : st.config.lstToken = some token)
    (balance_eq : q.tokenBalance token sender = .ok balance) (enough : amount ≤ balance)
    (allowance_eq : q.tokenAllowance token sender env.contract = .ok allowance)
    (allowed : amount ≤ allowance) :
    IsRequest q st env ⟨sender, funds⟩ (.unstake amount) amount sender token
      (.burnFrom sender amount) := by
  have hburn : burnMsgOf q env token amount sender .burnFromFlow =
      .ok (.burnFrom sender amount) := by
    simp only [burnMsgOf, bind_eq_ok, require_eq_ok, pure_eq_ok]
    exact ⟨balance, balance_eq, (), enough, allowance, allowance_eq, (), allowed, trivial⟩
  unfold IsRequest request execute
  cases hpaused : st.parameters.paused with
  | true => rfl
  | false => exact executeUnstake_eq token_eq hburn

/-- The token hands over what was sent to the hub. -/
theorem isRequest_receive {token : Addr} {funds : List Coin}
    (token_eq : st.config.lstToken = some token) :
    IsRequest q st env ⟨token, funds⟩ (.receive ⟨sender, amount, some .unstake⟩) amount sender
      token (.burn amount) := by
  have hburn : burnMsgOf q env token amount sender .burnFlow = .ok (.burn amount) := rfl
  unfold IsRequest request execute
  cases hpaused : st.parameters.paused with
  | true => rfl
  | false =>
    refine Eq.trans ?_ (executeUnstake_eq token_eq hburn)
    show (receiveCw20 q st env ⟨token, funds⟩ ⟨sender, amount, some .unstake⟩).map _ = _
    simp only [receiveCw20, token_eq, okOr, require, if_pos, bind, Except.bind]

end Hub

/-! ### The calls -/

/-- A message to a contract is its call, and then what the contract answers with. -/
theorem deliverAll_one (n : ℕ) (w : World T) (sender contract : Addr) (msg : ContractMsg)
    (funds : List Coin) :
    deliverAll d (n + 1) w sender [.wasmExecute contract msg funds] =
      callContract d w sender contract funds msg >>= fun r => deliverAll d n r.1 contract r.2 := by
  simp only [deliverAll, List.foldlM_cons, List.foldlM_nil, deliver, bind_pure, bind_assoc,
    pure_bind]

theorem deliverAll_both (n : ℕ) (w : World T) (sender : Addr) (ms ms' : List CosmosMsg) :
    deliverAll d (n + 1) w sender (ms ++ ms') =
      deliverAll d (n + 1) w sender ms >>= fun w => deliverAll d (n + 1) w sender ms' := by
  simp only [deliverAll, List.foldlM_append]

/-- A call of the hub without coins. -/
theorem callContract_free (w : World T) (sender : Addr) (msg : HubMsg) :
    callContract d w sender d.hub [] (.hub msg) =
      (Hub.execute (w.querier d) w.hub (w.env d.hub) ⟨sender, []⟩ msg).map
        fun r => ({ w with hub := r.1 }, r.2.messages) := by
  have hsame : { w with bank := w.bank + fundsIn d.denom [] } = w := rfl
  simp only [callContract, require, if_pos, hsame]
  cases Hub.execute (w.querier d) w.hub (w.env d.hub) ⟨sender, []⟩ msg <;> rfl

/-- The check that the token asks for after a burn. -/
def World.checkedAfter (d : Deployment T) (w : World T) : Exec (World T) :=
  (Hub.execute (w.querier d) w.hub (w.env d.hub) ⟨d.token, []⟩ .checkSlashing).map
    fun r => { w with hub := r.1 }

/-- **A burn by the hub**, with the check it leads to. -/
theorem deliverAll_burn {n : ℕ} {w : World T} {t : T} {burn : Cw20Msg}
    (token_hub : w.token.hubContract = d.hub)
    (burned : d.cw20.execute w.token.cw20 (w.env d.token) d.hub burn = .ok t)
    (checks : Token.messagesOf w.token d.hub burn = [Token.buildCheckSlashingSubMsg w.token]) :
    deliverAll d (n + 3) w d.hub [.wasmExecute d.token (.token burn) []] =
      (w.withLedger t).checkedAfter d := by
  have hcall : callContract d w d.hub d.token [] (.token burn) =
      .ok (w.withLedger t, [.wasmExecute d.hub (.hub .checkSlashing) []]) := by
    have hmessages : Token.messagesOf w.token d.hub burn =
        [.wasmExecute d.hub (.hub .checkSlashing) []] := by
      rw [checks, Token.buildCheckSlashingSubMsg, token_hub]
    simp only [callContract, Token.execute, bind_eq_ok, require_eq_ok, pure_eq_ok, Prod.exists]
    exact ⟨(), trivial, _, _, ⟨t, burned, rfl⟩, by rw [hmessages]; rfl⟩
  rw [deliverAll_one, hcall]
  show deliverAll d (n + 2) (w.withLedger t) d.token
    [.wasmExecute d.hub (.hub .checkSlashing) []] = _
  rw [deliverAll_one, callContract_free]
  unfold World.checkedAfter
  cases hx : Hub.execute ((w.withLedger t).querier d) (w.withLedger t).hub
      ((w.withLedger t).env d.hub) ⟨d.token, []⟩ .checkSlashing with
  | error e => rfl
  | ok r =>
    obtain ⟨hub, res⟩ := r
    obtain ⟨-, -, -, hmessages⟩ := (Hub.execute_ok hx).checked
    show deliverAll d (n + 1) { w.withLedger t with hub := hub } d.hub res.messages = _
    rw [hmessages, deliverAll_nil]
    rfl

/-- What the hub asks while another ledger has the same supply. -/
theorem World.querier_withLedger {w : World T} {t : T}
    (supply_eq : d.cw20.totalSupply t = d.cw20.totalSupply w.token.cw20) :
    (w.withLedger t).querier d =
      { w.querier d with
        tokenBalance := ((w.withLedger t).querier d).tokenBalance
        tokenAllowance := ((w.withLedger t).querier d).tokenAllowance } := by
  simp only [World.querier, World.withLedger, supply_eq]

/-- The check asks for the supply of the token alone. -/
theorem World.checkedAfter_withLedger {w : World T} {t : T}
    (supply_eq : d.cw20.totalSupply t = d.cw20.totalSupply w.token.cw20) :
    (w.withLedger t).checkedAfter d = (w.checkedAfter d).map fun w => w.withLedger t := by
  unfold World.checkedAfter
  rw [World.querier_withLedger supply_eq]
  show (Hub.execute (w.querier d) w.hub (w.env d.hub) ⟨d.token, []⟩ .checkSlashing).map _ =
    ((Hub.execute (w.querier d) w.hub (w.env d.hub) ⟨d.token, []⟩ .checkSlashing).map _).map _
  cases Hub.execute (w.querier d) w.hub (w.env d.hub) ⟨d.token, []⟩ .checkSlashing <;> rfl

/-- The world once a request is noted and its undelegations queued. -/
def World.requested (w : World T) (r : Hub.Storage × List CosmosMsg) : World T :=
  { w with
    hub := r.1
    queue := w.queue ++ queuedIn r.2 }

/-- **What a request leads to**: its undelegations, the burn and the check. -/
theorem World.deliver_request {n amount : ℕ} {w : World T} {t : T} {q : Querier}
    {info : MessageInfo} {msg : HubMsg} {sender : String} {burn : Cw20Msg}
    (token_hub : w.token.hubContract = d.hub)
    (denom_eq : w.hub.parameters.stakingCoinDenom = d.denom)
    (asks : Hub.IsRequest q w.hub (w.env d.hub) info msg amount sender d.token burn)
    (burned : d.cw20.execute w.token.cw20 (w.env d.token) d.hub burn = .ok t)
    (checks : Token.messagesOf w.token d.hub burn = [Token.buildCheckSlashingSubMsg w.token]) :
    (((Hub.execute q w.hub (w.env d.hub) info msg).map
        fun r => ({ w with hub := r.1 }, r.2.messages)) >>=
      fun r => deliverAll d (n + 3) r.1 d.hub r.2) =
    (Hub.request q w.hub (w.env d.hub) amount sender) >>=
      fun r => ((w.requested r).withLedger t).checkedAfter d := by
  unfold Hub.IsRequest at asks
  cases hr : Hub.request q w.hub (w.env d.hub) amount sender with
  | error e =>
    rw [hr] at asks
    cases hx : Hub.execute q w.hub (w.env d.hub) info msg with
    | error e' =>
      rw [hx] at asks
      obtain rfl : e' = e := Except.error.inj asks
      rfl
    | ok r =>
      rw [hx] at asks
      cases asks
  | ok r =>
    rw [hr] at asks
    cases hx : Hub.execute q w.hub (w.env d.hub) info msg with
    | error e' =>
      rw [hx] at asks
      cases asks
    | ok r' =>
      obtain ⟨st', ms⟩ := r
      obtain ⟨hub, res⟩ := r'
      rw [hx] at asks
      obtain ⟨rfl, hmessages⟩ := Prod.mk.inj (Except.ok.inj asks)
      have hundelegates : ∀ m ∈ ms, ∃ v n, m = .wrappedUndelegate d.hub v ⟨d.denom, n⟩ := by
        simp only [Hub.request, bind_eq_ok] at hr
        obtain ⟨_, -, hnoted⟩ := hr
        rw [← denom_eq]
        exact (Hub.noteRequest_ok hnoted).2
      show deliverAll d (n + 3) { w with hub := hub } d.hub res.messages = _
      rw [hmessages, deliverAll_both, deliverAll_undelegations hundelegates]
      exact deliverAll_burn token_hub burned checks

/-! ### The flows -/

section Requests

variable {w : World T} {user : Addr} {amount : ℕ} (isUser : d.IsUser user)
  (token_hub : w.token.hubContract = d.hub) (hub_token : w.hub.config.lstToken = some d.token)
  (denom_eq : w.hub.parameters.stakingCoinDenom = d.denom)

include isUser token_hub hub_token denom_eq

/-- The user asks the hub, which burns from the user. -/
theorem World.exec_unstake {burnedFrom : T}
    (balance : amount ≤ d.cw20.balance w.token.cw20 user)
    (allowance : amount ≤ d.cw20.allowance w.token.cw20 user d.hub)
    (burnFrom : d.cw20.execute w.token.cw20 (w.env d.token) d.hub (.burnFrom user amount) =
      .ok burnedFrom) :
    w.exec d (.transact user d.hub (.hub (.unstake amount)) []) =
      Hub.request (w.querier d) w.hub (w.env d.hub) amount user >>=
        fun r => ((w.requested r).withLedger burnedFrom).checkedAfter d := by
  refine (bind_ok (require_ok isUser)).trans ?_
  rw [CALL_DEPTH, deliverAll_one, callContract_free]
  refine World.deliver_request token_hub denom_eq ?_ burnFrom rfl
  exact Hub.isRequest_unstake hub_token (if_pos rfl) balance (if_pos rfl) allowance

/-- The token hands over what the user sends, and the hub burns that. -/
theorem World.exec_send {sent burned : T}
    (send : d.cw20.execute w.token.cw20 (w.env d.token) user
      (.send d.hub amount (some .unstake)) = .ok sent)
    (burn : d.cw20.execute sent (w.env d.token) d.hub (.burn amount) = .ok burned) :
    w.exec d (.transact user d.token (.token (.send d.hub amount (some .unstake))) []) =
      Hub.request (w.querier d) w.hub (w.env d.hub) amount user >>=
        fun r => ((w.requested r).withLedger burned).checkedAfter d := by
  refine (bind_ok (require_ok isUser)).trans ?_
  have hsend : callContract d w user d.token []
      (.token (.send d.hub amount (some .unstake))) = .ok (w.withLedger sent,
        [.wasmExecute d.hub (.hub (.receive ⟨user, amount, some .unstake⟩)) []]) := by
    simp only [callContract, Token.execute, bind_eq_ok, require_eq_ok, pure_eq_ok, Prod.exists]
    exact ⟨(), trivial, _, _, ⟨sent, send, rfl⟩, rfl⟩
  rw [CALL_DEPTH, deliverAll_one, hsend]
  show deliverAll d (4 + 1) (w.withLedger sent) d.token _ = _
  rw [deliverAll_one, callContract_free]
  refine (World.deliver_request (n := 1) (w := w.withLedger sent) token_hub denom_eq
    (Hub.isRequest_receive hub_token) burn rfl).trans ?_
  have hsupply := d.cw20.supply_eq send
  rw [World.querier_withLedger hsupply]
  rfl

end Requests

/-- **The two ways to unstake agree**: in every world that is reached, for a user
whom the token lets do both, asking the hub and sending the tokens to it end in
the same world, but for the ledger of the token, or are refused alike. -/
theorem unstake_flows_agree {w₀ w : World T} {tr : List (Action × World T)}
    (created : w₀.Created d) (run : Run (World.Step d) w₀ tr w) {user : Addr} {amount : ℕ}
    {sent burned burnedFrom : T}
    (balance : amount ≤ d.cw20.balance w.token.cw20 user)
    (allowance : amount ≤ d.cw20.allowance w.token.cw20 user d.hub)
    (send : d.cw20.execute w.token.cw20 (w.env d.token) user
      (.send d.hub amount (some .unstake)) = .ok sent)
    (burn : d.cw20.execute sent (w.env d.token) d.hub (.burn amount) = .ok burned)
    (burnFrom : d.cw20.execute w.token.cw20 (w.env d.token) d.hub (.burnFrom user amount) =
      .ok burnedFrom) :
    w.exec d (.transact user d.hub (.hub (.unstake amount)) []) =
      (w.exec d (.transact user d.token (.token (.send d.hub amount (some .unstake))) [])).map
        fun w' => w'.withLedger burnedFrom := by
  obtain ⟨wired, regular⟩ := created.run_reached run
  have hdenom : w.hub.parameters.stakingCoinDenom = d.denom := regular.denom_eq
  by_cases isUser : d.IsUser user
  · rw [World.exec_unstake isUser wired.token_hub wired.hub_token hdenom balance allowance burnFrom,
      World.exec_send isUser wired.token_hub wired.hub_token hdenom send burn]
    cases Hub.request (w.querier d) w.hub (w.env d.hub) amount user with
    | error e => rfl
    | ok r =>
      have hsupply : d.cw20.totalSupply burnedFrom = d.cw20.totalSupply burned := by
        have hsent := d.cw20.supply_eq send
        have hburned := d.cw20.supply_eq burn
        have hfrom := d.cw20.supply_eq burnFrom
        simp only [Cw20Msg.burned, Cw20Msg.minted, Nat.add_zero] at hsent hburned hfrom
        omega
      exact World.checkedAfter_withLedger (w := (w.requested r).withLedger burned) hsupply
  · have refused : ∀ contract msg,
        w.exec d (.transact user contract msg []) = .error (.external "not a user") :=
      fun _ _ => by rw [World.exec, require, if_neg isUser]; rfl
    rw [refused, refused]
    rfl

/-- A user with 100 tokens and an allowance of 60 unstakes 60, and the batch is closed. -/
theorem unstake_flows_agree_sample :
    let w := sampleEnd (sampleStake ++ [toToken "alice" (.increaseAllowance "hub" 60),
      .passes ⟨900, 12000⟩])
    ∃ t, w.exec sampleDeployment (.transact "alice" "hub" (.hub (.unstake 60)) []) =
        (w.exec sampleDeployment
          (.transact "alice" "token" (.token (.send "hub" 60 (some .unstake))) [])).map
            (fun w' => w'.withLedger t) ∧
      (w.exec sampleDeployment (.transact "alice" "hub" (.hub (.unstake 60)) [])).map
        (fun w' => (w'.hub.currentBatch.id, queuedUnstake w'.queue)) = .ok (2, 60) := by
  intro w
  have run := sampleRun (sampleStake ++ [toToken "alice" (.increaseAllowance "hub" 60),
    .passes ⟨900, 12000⟩]) (by decide +kernel)
  have facts : 60 ≤ Token.ledger.balance w.token.cw20 "alice" ∧
      60 ≤ Token.ledger.allowance w.token.cw20 "alice" "hub" ∧
      (do
        let sent ← Token.ledger.execute w.token.cw20 (w.env "token") "alice"
          (.send "hub" 60 (some .unstake))
        let _ ← Token.ledger.execute sent (w.env "token") "hub" (.burn 60)
        let _ ← Token.ledger.execute w.token.cw20 (w.env "token") "hub" (.burnFrom "alice" 60)
        return ()) = .ok () ∧
      (w.exec sampleDeployment (.transact "alice" "hub" (.hub (.unstake 60)) [])).map
        (fun w' => (w'.hub.currentBatch.id, queuedUnstake w'.queue)) = .ok (2, 60) := by
    decide +kernel
  obtain ⟨balance, allowance, tokens, hclosed⟩ := facts
  simp only [bind_eq_ok] at tokens
  obtain ⟨sent, hsent, burned, hburned, burnedFrom, hfrom, -⟩ := tokens
  exact ⟨burnedFrom, unstake_flows_agree sampleWorld_created run balance allowance hsent hburned
    hfrom, hclosed⟩

end BabyLst
