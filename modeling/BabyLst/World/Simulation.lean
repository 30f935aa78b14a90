/-
# The world keeps the books

Every accepted action of the world is a move of its books (`World.exec_books`).
The proof follows a transaction through its messages: what a response of the hub
consists of (`Effect.shape`), what delivering it does (`deliver_response`), and
then one case per message a user can send.
-/

import BabyLst.World.Books

namespace BabyLst

open Lib Std

variable {T : Type} {d : Deployment T}

/-! ### The wiring -/

/-- **The contracts know each other**: the token its hub, which alone mints, and
the hub its token. -/
structure World.Wired (d : Deployment T) (w : World T) : Prop where
  token_hub : w.token.hubContract = d.hub
  minter_eq : d.cw20.minter w.token.cw20 = some d.hub
  hub_token : w.hub.config.lstToken = some d.token

theorem Hub.Completion.config_eq {q : Querier} {st st' : Hub.Storage} {env : Env}
    {batch batch' : Hub.CurrentBatch} {messages : List CosmosMsg}
    (h : Hub.Completion q st env batch st' batch' messages) : st'.config = st.config := by
  cases h <;> rfl

/-- The token of the hub is set once. -/
theorem Hub.Effect.lstToken {q : Querier} {st st' : Hub.Storage} {env : Env} {info : MessageInfo}
    {msg : HubMsg} {res : Response} {a : Addr} (h : Hub.Effect q st env info msg st' res)
    (ha : st.config.lstToken = some a) : st'.config.lstToken = some a := by
  cases h with
  | stake h =>
    obtain ⟨-⟩ := h
    exact ha
  | unstake msg_eq token_eq h => rw [h.config_eq]; exact ha
  | withdraw h =>
    obtain ⟨-⟩ := h
    exact ha
  | processUndelegations ne h => rw [h.config_eq]; exact ha
  | updateConfig auth token => exact token a ha
  | _ => exact ha

/-- The wiring is about the token and the hub's configuration. -/
theorem World.Wired.congr {w w' : World T} (h : w.Wired d) (ht : w'.token = w.token)
    (hh : w'.hub = w.hub) : w'.Wired d :=
  ⟨ht ▸ h.token_hub, ht ▸ h.minter_eq, hh ▸ h.hub_token⟩

theorem callContract_wired {w w' : World T} {sender contract : Addr} {funds : List Coin}
    {msg : ContractMsg} {messages : List CosmosMsg}
    (h : callContract d w sender contract funds msg = .ok (w', messages)) (hw : w.Wired d) :
    w'.Wired d := by
  cases msg with
  | hub msg =>
    simp only [callContract, bind_eq_ok, require_eq_ok, Prod.exists, pure_eq_ok,
      Prod.mk.injEq] at h
    obtain ⟨_, -, hub, res, hx, rfl, -⟩ := h
    exact ⟨hw.token_hub, hw.minter_eq, (Hub.execute_ok hx).lstToken hw.hub_token⟩
  | token msg =>
    simp only [callContract, bind_eq_ok, require_eq_ok, Prod.exists, pure_eq_ok,
      Prod.mk.injEq] at h
    obtain ⟨_, -, token, ms, hx, rfl, -⟩ := h
    obtain ⟨hbase, hhub, -⟩ := Token.execute_ok hx
    exact ⟨hhub.trans hw.token_hub, (d.cw20.minter_eq hbase).trans hw.minter_eq, hw.hub_token⟩
  | registry msg =>
    simp only [callContract, bind_eq_ok, require_eq_ok, Prod.exists, pure_eq_ok,
      Prod.mk.injEq] at h
    obtain ⟨_, -, registry, ms, -, rfl, -⟩ := h
    exact hw.congr rfl rfl
  | dispatchRewards => simp [callContract] at h

theorem deliver_wired {w w' : World T} {sender callee : Addr} {m : CosmosMsg}
    {inner : List CosmosMsg} (h : deliver d w sender m = .ok (w', callee, inner))
    (hw : w.Wired d) : w'.Wired d := by
  by_cases hm : m.toChain = true
  · obtain ⟨rfl, -, -⟩ := deliver_chain hm h
    exact hw.congr rfl rfl
  · cases m with
    | wasmExecute contract msg funds =>
      simp only [deliver, bind_eq_ok, Prod.exists, pure_eq_ok, Prod.mk.injEq] at h
      obtain ⟨w₁, ms, hcall, rfl, -, -⟩ := h
      exact callContract_wired hcall hw
    | _ => simp [CosmosMsg.toChain] at hm

/-- Whatever is delivered, the wiring stays. -/
theorem deliverAll_wired (n : ℕ) : ∀ {w w' : World T} {sender : Addr} {ms : List CosmosMsg},
    deliverAll d n w sender ms = .ok w' → w.Wired d → w'.Wired d := by
  induction n with
  | zero =>
    intro w w' sender ms h hw
    simp only [deliverAll, bind_eq_ok, pure_eq_ok] at h
    obtain ⟨_, -, rfl⟩ := h
    exact hw
  | succ n ihn =>
    intro w w' sender ms
    induction ms generalizing w with
    | nil =>
      intro h hw
      rw [deliverAll_nil] at h
      cases h
      exact hw
    | cons m ms ih =>
      intro h hw
      rw [deliverAll_cons] at h
      obtain ⟨w₁, callee, inner, w₂, hm, hinner, h⟩ := h
      exact ih h (ihn hinner (deliver_wired hm hw))

/-! ### Calls -/

/-- A call of the hub. -/
theorem callContract_hub {w w' : World T} {sender contract : Addr} {funds : List Coin}
    {msg : HubMsg} {messages : List CosmosMsg}
    (h : callContract d w sender contract funds (.hub msg) = .ok (w', messages)) :
    contract = d.hub ∧ ∃ (q : Querier) (hub : Hub.Storage) (res : Response),
      Answers d ((w.books d).paid d ⟨sender, funds⟩) q ∧
      Hub.execute q w.hub ⟨w.block, d.hub⟩ ⟨sender, funds⟩ msg = .ok (hub, res) ∧
      messages = res.messages ∧
      w' = { w with hub := hub, bank := w.bank + fundsIn d.denom funds } := by
  simp only [callContract, bind_eq_ok, require_eq_ok, Prod.exists, pure_eq_ok, Prod.mk.injEq] at h
  obtain ⟨_, hc, hub, res, hx, rfl, rfl⟩ := h
  exact ⟨hc, _, hub, res,
    World.answers d { w with bank := w.bank + fundsIn d.denom funds }, hx, rfl, rfl⟩

/-- A call of the token. -/
theorem callContract_token {w w' : World T} {sender contract : Addr} {funds : List Coin}
    {msg : Cw20Msg} {messages : List CosmosMsg}
    (h : callContract d w sender contract funds (.token msg) = .ok (w', messages)) :
    contract = d.token ∧ messages = Token.messagesOf w.token sender msg ∧
      (∃ token, w' = { w with token := token }) ∧
      d.cw20.totalSupply w'.token.cw20 + msg.burned =
        d.cw20.totalSupply w.token.cw20 + msg.minted ∧
      (∀ r a, msg = .mint r a → d.cw20.minter w.token.cw20 = some sender) := by
  simp only [callContract, bind_eq_ok, require_eq_ok, Prod.exists, pure_eq_ok, Prod.mk.injEq] at h
  obtain ⟨_, hc, token, ms, hx, rfl, rfl⟩ := h
  obtain ⟨hbase, -, rfl⟩ := Token.execute_ok hx
  refine ⟨hc, rfl, ⟨token, rfl⟩, d.cw20.supply_eq hbase, ?_⟩
  rintro r a rfl
  exact d.cw20.mint_auth hbase

/-- The token's supply is what differs in the books after a call of the token. -/
theorem World.books_token (w : World T) (token : Token.Storage T) :
    ({ w with token := token } : World T).books d =
      { w.books d with supply := d.cw20.totalSupply token.cw20 } := rfl

/-- **The check that the token asks for.** -/
theorem deliver_check {n : ℕ} {w w' : World T}
    (h : deliverAll d (n + 2) w d.token [Token.buildCheckSlashingSubMsg w.token] = .ok w') :
    Check d (w.books d) (w'.books d) := by
  rw [Token.buildCheckSlashingSubMsg, deliverAll_call] at h
  obtain ⟨w₁, ms, hcall, hinner⟩ := h
  obtain ⟨-, q, hub, res, hans, hx, rfl, rfl⟩ := callContract_hub hcall
  obtain ⟨-, -, -, hnone⟩ := (Hub.execute_ok hx).checked
  rw [hnone, deliverAll_nil] at hinner
  cases hinner
  have call := Call.intro hans (Hub.execute_ok hx)
    (by rw [hnone]; exact Nat.zero_le _) (by rw [hnone]; exact Nat.zero_le _)
  rw [hnone] at call
  have heq : ((w.books d).paid d ⟨d.token, []⟩).after hub [] =
      ({ w with hub := hub, bank := w.bank + fundsIn d.denom [] } : World T).books d := by
    simp [Books.after, Books.paid, World.books]
  rw [heq] at call
  exact call

/-! ### What a response of the hub consists of -/

theorem toChain_delegateMsgs (denom : String) (a : Addr) (vs : List ValidatorResponse)
    (plan : List ℕ) : ∀ m ∈ Hub.delegateMsgs denom a vs plan, m.toChain = true := by
  intro m hm
  obtain ⟨e, -, rfl⟩ := List.mem_map.1 hm
  rfl

theorem toChain_undelegateMsgs (denom : String) (a : Addr) (vs : List ValidatorResponse)
    (plan : List ℕ) : ∀ m ∈ Hub.undelegateMsgs denom a vs plan, m.toChain = true := by
  intro m hm
  obtain ⟨e, -, rfl⟩ := List.mem_map.1 hm
  rfl

theorem Hub.Completion.toChain {q : Querier} {st st' : Hub.Storage} {env : Env}
    {batch batch' : Hub.CurrentBatch} {messages : List CosmosMsg}
    (h : Hub.Completion q st env batch st' batch' messages) :
    ∀ m ∈ messages, m.toChain = true := by
  cases h with
  | stillOpen => simp
  | closed => exact toChain_undelegateMsgs _ _ _ _

/-- The last message of a response, after those to the chain. -/
inductive Tail (msg : HubMsg) : List CosmosMsg → Prop
  | none (plain : msg.unstakes = false) : Tail msg []
  | mint (plain : msg.unstakes = false) (token : Addr) (recipient : String) (amount : ℕ) :
    Tail msg [.wasmExecute token (.token (.mint recipient amount)) []]
  | burn (unstakes : msg.unstakes = true) (token : Addr) (sender : Addr) (amount : ℕ)
    (flow : Hub.UnstakeType) :
    Tail msg [.wasmExecute token (.token (Hub.burnMsg sender amount flow)) []]
  | dispatch (dispatcher : Addr) : Tail msg [.wasmExecute dispatcher .dispatchRewards []]

/-- **A response of the hub** is messages to the chain, and at the end at most
one to a contract. -/
theorem Hub.Effect.shape {q : Querier} {st st' : Hub.Storage} {env : Env} {info : MessageInfo}
    {msg : HubMsg} {res : Response} (h : Hub.Effect q st env info msg st' res) :
    ∃ chain tail, res.messages = chain ++ tail ∧ (∀ m ∈ chain, m.toChain = true) ∧
      Tail msg tail := by
  cases h with
  | @stake t st' res h =>
    obtain @⟨payment, supply, mint, state, pending, validators, plan, registry, token, res, -, -, -,
      -, -, -, -, -, -, -, -, -, messages_eq⟩ := h
    refine ⟨_, _, messages_eq, toChain_delegateMsgs _ _ _ _, ?_⟩
    cases t with
    | lstMint => exact .mint rfl _ _ _
    | stakeRewards => exact .none rfl
  | @unstake msg sender amount flow batch messages token st' res msg_eq token_eq h messages_eq =>
    refine ⟨_, _, messages_eq, h.toChain, .burn ?_ _ _ _ _⟩
    rcases msg_eq with ⟨rfl, -, -⟩ | ⟨rfl, -, -⟩ <;> rfl
  | @withdraw batchIds st' res h =>
    obtain @⟨free, left, amount, released, res, -, -, -, -, -, -, -, messages_eq, -⟩ := h
    refine ⟨_, _, messages_eq.trans (List.append_nil _).symm, by simp [CosmosMsg.toChain],
      .none ?_⟩
    cases batchIds <;> rfl
  | release _ _ _ _ messages_eq => exact ⟨[], [], messages_eq, by simp, .none rfl⟩
  | checkSlashing h messages_eq => exact ⟨[], [], messages_eq, by simp, .none rfl⟩
  | nothingRequested => exact ⟨[], [], rfl, by simp, .none rfl⟩
  | processUndelegations ne h => exact ⟨_, [], (List.append_nil _).symm, h.toChain, .none rfl⟩
  | updateParams auth messages_eq => exact ⟨[], [], messages_eq, by simp, .none rfl⟩
  | updateConfig auth token messages_eq =>
    refine ⟨_, [], (List.append_nil _).symm, fun m hm => ?_, .none rfl⟩
    obtain ⟨a, rfl⟩ := messages_eq m hm
    rfl
  | redelegate auth messages_eq =>
    refine ⟨_, [], (List.append_nil _).symm, fun m hm => ?_, .none rfl⟩
    rw [messages_eq] at hm
    obtain ⟨e, -, rfl⟩ := List.mem_map.1 hm
    rfl
  | updateGlobalIndex dispatcher_eq messages_eq =>
    refine ⟨_, _, messages_eq, fun m hm => ?_, .dispatch _⟩
    obtain ⟨e, -, rfl⟩ := List.mem_map.1 hm
    rfl

/-! ### Delivering a response -/

/-- The messages to the chain send and queue, the last one mints and burns. -/
theorem Tail.totals {msg : HubMsg} {chain tail : List CosmosMsg} (h : Tail msg tail)
    (hchain : ∀ m ∈ chain, m.toChain = true) :
    sentIn (chain ++ tail) = sentIn chain ∧ queuedIn (chain ++ tail) = queuedIn chain ∧
      mintedIn (chain ++ tail) = mintedIn tail ∧ burnedIn (chain ++ tail) = burnedIn tail := by
  obtain ⟨hminted, hburned⟩ := toChain_tokens hchain
  have htail : sentIn tail = 0 ∧ queuedIn tail = [] := by
    cases h <;> exact ⟨rfl, rfl⟩
  refine ⟨?_, ?_, ?_, ?_⟩
  · rw [sentIn_append, htail.1, Nat.add_zero]
  · rw [queuedIn_append, htail.2, List.append_nil]
  · rw [mintedIn_append, hminted, Nat.zero_add]
  · rw [burnedIn_append, hburned, Nat.zero_add]

/-- **The books after a response**, once the token has minted or burned what the
last message asks for. -/
theorem World.books_after (w : World T) (token : Token.Storage T) (sender : Addr)
    (funds : List Coin) (hub : Hub.Storage) {msg : HubMsg} {chain tail : List CosmosMsg}
    (htail : Tail msg tail)
    (hchain : ∀ m ∈ chain, m.toChain = true)
    (hsupply : d.cw20.totalSupply token.cw20 + burnedIn tail =
      d.cw20.totalSupply w.token.cw20 + mintedIn tail) :
    ({ ({ w with hub := hub, bank := w.bank + fundsIn d.denom funds } : World T).afterChain chain
      with token := token } : World T).books d =
      ((w.books d).paid d ⟨sender, funds⟩).after hub (chain ++ tail) := by
  obtain ⟨hsent, hqueued, hminted, hburned⟩ := htail.totals hchain
  have hnow : d.cw20.totalSupply token.cw20 =
      d.cw20.totalSupply w.token.cw20 + mintedIn tail - burnedIn tail := by omega
  unfold Books.after
  rw [hsent, hqueued, hminted, hburned]
  simp only [World.books, World.afterChain, Books.paid, hnow]

/-- **A call of the hub and its response**: one call on the books, and after a
request to unstake the check. -/
theorem deliver_response {n : ℕ} {w w₁ w' : World T} {sender : Addr} {funds : List Coin}
    {msg : HubMsg} {messages : List CosmosMsg} (hw : w.Wired d)
    (hcall : callContract d w sender d.hub funds (.hub msg) = .ok (w₁, messages))
    (h : deliverAll d (n + 3) w₁ d.hub messages = .ok w') :
    (msg.unstakes = false ∧ Call d (w.books d) ⟨sender, funds⟩ msg (w'.books d)) ∨
      (msg.unstakes = true ∧ ∃ b, Call d (w.books d) ⟨sender, funds⟩ msg b ∧
        Check d b (w'.books d)) := by
  have hw₁ := callContract_wired hcall hw
  obtain ⟨-, q, hub, res, hans, hx, rfl, rfl⟩ := callContract_hub hcall
  have heff := Hub.execute_ok hx
  obtain ⟨chain, tail, hms, hchain, htail⟩ := heff.shape
  rw [hms, deliverAll_append] at h
  obtain ⟨w₂, h₂, h⟩ := h
  have hw₂ := deliverAll_wired _ h₂ hw₁
  obtain ⟨rfl, hsent⟩ := deliverAll_chain hchain h₂
  obtain ⟨hall_sent, -, hall_minted, hall_burned⟩ := htail.totals hchain
  rw [← hms] at hall_sent hall_minted hall_burned
  cases htail with
  | none plain =>
    rw [deliverAll_nil] at h
    cases h
    refine .inl ⟨plain, ?_⟩
    have call := Call.intro hans heff (by rw [hall_burned]; exact Nat.zero_le _)
      (by rw [hall_sent]; exact hsent)
    rw [hms, ← w.books_after w.token sender funds hub (.none plain) hchain rfl] at call
    exact call
  | mint plain token recipient amount =>
    rw [deliverAll_call] at h
    obtain ⟨w₃, ms, htok, hinner⟩ := h
    obtain ⟨-, rfl, ⟨token, rfl⟩, hsupply, -⟩ := callContract_token htok
    simp only [Token.messagesOf, deliverAll_nil] at hinner
    cases hinner
    refine .inl ⟨plain, ?_⟩
    have call := Call.intro hans heff (by rw [hall_burned]; exact Nat.zero_le _)
      (by rw [hall_sent]; exact hsent)
    rw [hms, ← w.books_after token sender funds hub (.mint plain _ _ _) hchain hsupply] at call
    exact call
  | burn unstakes token burner amount flow =>
    rw [deliverAll_call] at h
    obtain ⟨w₃, ms, htok, hinner⟩ := h
    have hw₃ := callContract_wired htok hw₂
    obtain ⟨rfl, rfl, ⟨token, rfl⟩, hsupply, -⟩ := callContract_token htok
    have hcheck : Token.messagesOf
        (({ w with hub := hub, bank := w.bank + fundsIn d.denom funds } : World T).afterChain
          chain).token d.hub (Hub.burnMsg burner amount flow) =
        [Token.buildCheckSlashingSubMsg token] := by
      have hhub : token.hubContract = w.token.hubContract := by
        rw [show token.hubContract = d.hub from hw₃.token_hub, hw.token_hub]
      cases flow <;> simp [Hub.burnMsg, Token.messagesOf, Token.buildCheckSlashingSubMsg, hhub,
        World.afterChain]
    rw [hcheck] at hinner
    have hmint : (Hub.burnMsg burner amount flow).minted = 0 := by cases flow <;> rfl
    refine .inr ⟨unstakes, _, Call.intro hans heff ?_ (by rw [hall_sent]; exact hsent), ?_⟩
    · rw [hall_burned, hall_minted]
      have hle : (Hub.burnMsg burner amount flow).burned ≤ d.cw20.totalSupply w.token.cw20 +
          (Hub.burnMsg burner amount flow).minted := hsupply ▸ Nat.le_add_left _ _
      exact hle
    · have hchk := deliver_check hinner
      rw [hms, ← w.books_after token sender funds hub (.burn unstakes _ _ _ _) hchain hsupply]
      exact hchk
  | dispatch dispatcher =>
    rw [deliverAll_call] at h
    obtain ⟨w₃, ms, hcall', -⟩ := h
    simp [callContract] at hcall'

/-! ### Redelegations through the hub -/

theorem queuedIn_beginRedelegate (a : Addr) (src : String) (rs : List (String × Coin)) :
    queuedIn (rs.map fun e => .wrappedBeginRedelegate a src e.1 e.2) =
      rs.map fun e => .redelegate src e.1 e.2.amount := by
  induction rs with
  | nil => rfl
  | cons e rs ih =>
    rw [List.map_cons, List.map_cons, ← ih]
    rfl

theorem sentIn_beginRedelegate (a : Addr) (src : String) (rs : List (String × Coin)) :
    sentIn (rs.map fun e => .wrappedBeginRedelegate a src e.1 e.2) = 0 := by
  induction rs with
  | nil => rfl
  | cons e rs ih =>
    rw [List.map_cons, ← ih]
    exact Nat.zero_add _

/-- One redelegation through the hub queues it. -/
theorem deliver_proxy {n : ℕ} {w w₁ w' : World T} {sender hub callee : Addr} {src : String}
    {rs : List (String × Coin)} {inner : List CosmosMsg}
    (hm : deliver d w sender (.wasmExecute hub (.hub (.redelegateProxy src rs)) []) =
      .ok (w₁, callee, inner))
    (hinner : deliverAll d (n + 1) w₁ callee inner = .ok w') :
    w'.books d =
      { w.books d with queue := w.queue ++ rs.map fun e => .redelegate src e.1 e.2.amount } := by
  simp only [deliver, bind_eq_ok, Prod.exists, pure_eq_ok, Prod.mk.injEq] at hm
  obtain ⟨w₁', ms, hcall, rfl, rfl, rfl⟩ := hm
  obtain ⟨-, q, hub, res, -, hx, rfl, rfl⟩ := callContract_hub hcall
  obtain ⟨rfl, hms⟩ := (Hub.execute_ok hx).redelegateProxy
  rw [hms] at hinner
  have hchain : ∀ m ∈ rs.map fun e => CosmosMsg.wrappedBeginRedelegate d.hub src e.1 e.2,
      m.toChain = true := by
    intro m hm
    obtain ⟨e, -, rfl⟩ := List.mem_map.1 hm
    rfl
  obtain ⟨rfl, -⟩ := deliverAll_chain hchain hinner
  simp only [World.books, World.afterChain, queuedIn_beginRedelegate, sentIn_beginRedelegate,
    fundsIn, List.filter_nil, List.map_nil, List.sum_nil, Nat.add_zero, Nat.sub_zero]

/-- **The messages of `process_redelegations`** queue redelegations. -/
theorem deliverAll_proxies {n : ℕ} {sender hub : Addr} {ms : List CosmosMsg} :
    ∀ {w w' : World T},
      (∀ m ∈ ms, ∃ v rs, m = .wasmExecute hub (.hub (.redelegateProxy v rs)) []) →
      deliverAll d (n + 2) w sender ms = .ok w' →
      w'.books d = { w.books d with queue := w.queue ++ proxiedIn ms } := by
  induction ms with
  | nil =>
    intro w w' _ h
    rw [deliverAll_nil] at h
    cases h
    simp [World.books, proxiedIn]
  | cons m ms ih =>
    intro w w' hms h
    rw [deliverAll_cons] at h
    obtain ⟨w₁, callee, inner, w₂, hm, hinner, h⟩ := h
    obtain ⟨v, rs, rfl⟩ := hms m (List.mem_cons_self ..)
    have h₁ := deliver_proxy hm hinner
    have h₂ := ih (fun m' hm' => hms m' (List.mem_cons_of_mem _ hm')) h
    have hqueue : w₂.queue = w.queue ++ rs.map fun e => .redelegate v e.1 e.2.amount :=
      congrArg Books.queue h₁
    rw [h₂, h₁, hqueue, List.append_assoc]
    rfl

/-! ### Transactions -/

/-- The token alone hands tokens over to the hub. -/
theorem Call.receive_sender {b b' : Books} {info : MessageInfo} {msg : Cw20ReceiveMsg}
    (h : Call d b info (.receive msg) b') (ht : b.hub.config.lstToken = some d.token) :
    info.sender = d.token := by
  obtain ⟨-, effect, -, -⟩ := h
  exact Option.some.inj (effect.receive_sender.symm.trans ht)

/-- **Tokens handed over to the hub**: its call, and the check of the request it
makes. -/
theorem deliver_receive {n : ℕ} {w w' : World T} {hubC : Addr} {received : Cw20ReceiveMsg}
    (hw : w.Wired d)
    (h : deliverAll d (n + 4) w d.token [.wasmExecute hubC (.hub (.receive received)) []] =
      .ok w') :
    ∃ b, Call d (w.books d) ⟨d.token, []⟩ (.receive received) b ∧ Check d b (w'.books d) := by
  rw [deliverAll_call] at h
  obtain ⟨w₁, ms, hcall, hinner⟩ := h
  obtain ⟨rfl, -⟩ := callContract_hub hcall
  rcases deliver_response hw hcall hinner with ⟨hplain, -⟩ | ⟨-, b, hc, hk⟩
  · simp [HubMsg.unstakes] at hplain
  · exact ⟨b, hc, hk⟩

/-- **A message of a user to the token.** -/
theorem token_tx {n : ℕ} {w w₁ w' : World T} {sender contract : Addr} {funds : List Coin}
    {msg : Cw20Msg} {messages : List CosmosMsg} (hw : w.Wired d) (user : d.IsUser sender)
    (hcall : callContract d w sender contract funds (.token msg) = .ok (w₁, messages))
    (h : deliverAll d (n + 4) w₁ contract messages = .ok w') :
    Tx d (w.books d) (.token msg) (w'.books d) := by
  have hw₁ := callContract_wired hcall hw
  obtain ⟨rfl, rfl, ⟨token, rfl⟩, hsupply, hminter⟩ := callContract_token hcall
  have hhub : token.hubContract = w.token.hubContract := by
    rw [show token.hubContract = d.hub from hw₁.token_hub, hw.token_hub]
  have hsub : Token.buildCheckSlashingSubMsg w.token = Token.buildCheckSlashingSubMsg token := by
    rw [Token.buildCheckSlashingSubMsg, Token.buildCheckSlashingSubMsg, hhub]
  -- a message that neither mints nor burns leaves the books as they are
  have still : msg.burned = 0 → msg.minted = 0 →
      ({ w with token := token } : World T).books d = w.books d := by
    intro hb hm
    rw [hb, hm] at hsupply
    rw [World.books_token, show d.cw20.totalSupply token.cw20 = d.cw20.totalSupply w.token.cw20
      from hsupply]
    rfl
  have quiet : msg.calls = false → Token.messagesOf w.token sender msg = [] → msg.burned = 0 →
      msg.minted = 0 → Tx d (w.books d) (.token msg) (w'.books d) := by
    intro hcalls hnil hb hm
    rw [hnil, deliverAll_nil] at h
    cases h
    rw [still hb hm]
    exact .still hcalls
  have burned : ∀ amount, msg.burned = amount → msg.minted = 0 →
      amount ≤ d.cw20.totalSupply w.token.cw20 ∧
      ({ w with token := token } : World T).books d = (w.books d).burn amount := by
    intro amount hb hm
    rw [hb, hm] at hsupply
    have hs : d.cw20.totalSupply token.cw20 + amount = d.cw20.totalSupply w.token.cw20 := hsupply
    refine ⟨by omega, ?_⟩
    rw [World.books_token, show d.cw20.totalSupply token.cw20 =
      d.cw20.totalSupply w.token.cw20 - amount by omega]
    rfl
  cases msg with
  | transfer recipient amount => exact quiet rfl rfl rfl rfl
  | send hubC amount hook =>
    obtain ⟨b, hc, hk⟩ := deliver_receive hw₁ h
    rw [still rfl rfl] at hc
    exact .send (.inl ⟨_, _, rfl⟩) hc hk
  | transferFrom owner recipient amount => exact quiet rfl rfl rfl rfl
  | sendFrom owner hubC amount hook =>
    obtain ⟨b, hc, hk⟩ := deliver_receive hw₁ h
    rw [still rfl rfl] at hc
    exact .send (.inr ⟨_, _, _, rfl⟩) hc hk
  | increaseAllowance spender amount => exact quiet rfl rfl rfl rfl
  | decreaseAllowance spender amount => exact quiet rfl rfl rfl rfl
  | mint recipient amount =>
    have hm := hminter _ _ rfl
    rw [hw.minter_eq] at hm
    exact absurd (Option.some.inj hm).symm user.1
  | burn amount =>
    rw [Token.messagesOf, hsub] at h
    obtain ⟨hle, hb⟩ := burned amount rfl rfl
    have hk := deliver_check h
    rw [hb] at hk
    exact .burn (.inl rfl) hle hk
  | burnFrom owner amount =>
    rw [Token.messagesOf, hsub] at h
    obtain ⟨hle, hb⟩ := burned amount rfl rfl
    have hk := deliver_check h
    rw [hb] at hk
    exact .burn (.inr ⟨owner, rfl⟩) hle hk

/-- **A message of a user to the registry.** -/
theorem registry_tx {n : ℕ} {w w₁ w' : World T} {sender contract : Addr} {funds : List Coin}
    {msg : RegistryMsg} {messages : List CosmosMsg}
    (hcall : callContract d w sender contract funds (.registry msg) = .ok (w₁, messages))
    (h : deliverAll d (n + 2) w₁ contract messages = .ok w') :
    Tx d (w.books d) (.registry msg) (w'.books d) := by
  simp only [callContract, bind_eq_ok, require_eq_ok, Prod.exists, pure_eq_ok,
    Prod.mk.injEq] at hcall
  obtain ⟨_, -, registry, ms, hx, rfl, rfl⟩ := hcall
  -- the others change the registry and send nothing
  have quiet : ms = [] → Tx d (w.books d) (.registry msg) (w'.books d) := by
    rintro rfl
    rw [deliverAll_nil] at h
    cases h
    exact .registry hx
  cases msg with
  | processRedelegations =>
    simp only [Registry.execute, bind_eq_ok, pure_eq_ok, Prod.mk.injEq] at hx
    obtain ⟨ms', hp, rfl, rfl⟩ := hx
    have hms : ∀ m ∈ ms', ∃ v rs, m = .wasmExecute w.registry.config.hubContract
        (.hub (.redelegateProxy v rs)) [] := by
      intro m hm
      obtain ⟨v, rs, rfl, -⟩ := Registry.processRedelegations_messages hp m hm
      exact ⟨v, rs, rfl⟩
    rw [deliverAll_proxies hms h]
    exact .redelegate hp
  | addValidator =>
    simp only [Registry.execute, bind_eq_ok, pure_eq_ok, Prod.mk.injEq] at hx
    obtain ⟨_, -, -, rfl⟩ := hx
    exact quiet rfl
  | removeValidator =>
    simp only [Registry.execute, bind_eq_ok, pure_eq_ok, Prod.mk.injEq] at hx
    obtain ⟨_, -, -, rfl⟩ := hx
    exact quiet rfl
  | updateConfig =>
    simp only [Registry.execute, bind_eq_ok, pure_eq_ok, Prod.mk.injEq] at hx
    obtain ⟨_, -, -, rfl⟩ := hx
    exact quiet rfl

/-- **A transaction of the world is one of the books.** -/
theorem transact_books {w w' : World T} {sender contract : Addr} {funds : List Coin}
    {msg : ContractMsg} (hw : w.Wired d) (user : d.IsUser sender)
    (h : deliverAll d CALL_DEPTH w sender [.wasmExecute contract msg funds] = .ok w') :
    Tx d (w.books d) msg (w'.books d) := by
  rw [CALL_DEPTH, deliverAll_call] at h
  obtain ⟨w₁, ms, hcall, hinner⟩ := h
  cases msg with
  | hub msg =>
    obtain ⟨rfl, -⟩ := callContract_hub hcall
    rcases deliver_response hw hcall hinner with ⟨hplain, hc⟩ | ⟨hun, b, hc, hk⟩
    · exact .hub user hplain hc
    · cases msg with
      | unstake amount => exact .unstake user hc hk
      | receive msg => exact absurd (hc.receive_sender hw.hub_token) user.2.1
      | _ => simp [HubMsg.unstakes] at hun
  | token msg => exact token_tx hw user hcall hinner
  | registry msg => exact registry_tx hcall hinner
  | dispatchRewards => simp [callContract] at hcall

/-- **Every accepted action is a move of the books**, and the contracts stay
wired. -/
theorem World.exec_books {w w' : World T} {a : Action} (h : w.exec d a = .ok w')
    (hw : w.Wired d) : Move d (w.books d) a (w'.books d) ∧ w'.Wired d := by
  cases a with
  | transact sender contract msg funds =>
    simp only [World.exec, bind_eq_ok, require_eq_ok] at h
    obtain ⟨_, user, h⟩ := h
    exact ⟨.transact (transact_books hw user h), deliverAll_wired _ h hw⟩
  | credit amount =>
    simp only [World.exec, pure_eq_ok] at h
    subst h
    exact ⟨.credit amount, hw.congr rfl rfl⟩
  | advance block delegations =>
    simp only [World.exec, advance, bind_eq_ok, require_eq_ok] at h
    obtain ⟨_, ⟨hheight, htime⟩, h⟩ := h
    split_ifs at h with hsame
    · rw [pure_eq_ok] at h
      subst h
      exact ⟨.within hheight htime hsame, hw.congr rfl rfl⟩
    · simp only [bind_eq_ok, checkedSub_eq_ok, pure_eq_ok] at h
      obtain ⟨_, ⟨henough, rfl⟩, rfl⟩ := h
      exact ⟨.enter hheight htime hsame henough, hw.congr rfl rfl⟩

/-- Contracts that have just been set up are wired. -/
theorem World.Created.wired {w : World T} (h : w.Created d) : w.Wired d := by
  obtain ⟨q, info, st, res, res', dispatcher, hinst, hconf⟩ := h.hub_created
  refine ⟨h.token_hub, h.minter_eq, ?_⟩
  have hnone : st.config.lstToken = none := by rw [(Hub.instantiate_ok hinst).config_eq]
  exact (Hub.executeUpdateConfig_ok hconf).2.2.2.1 d.token hnone rfl

end BabyLst
