/-
# What users may claim, and what they are paid

An entry of a released batch is due its worth at the rate of the batch
(`Storage.due`); `Storage.claims` is all that is due.  The hub does not keep
that sum: it keeps `unclaimed_unstaked_balance`, and recomputes it from its free
balance at every release and every withdrawal.  It is enough for the claims as
long as nobody is paid an entry twice (`Effect.covered`).

`get_finished_amount_for_batches` adds up an entry as often as the caller lists
its batch, and the entry is deleted once: a list that repeats a batch is paid
more than is due (`repeated_batch_is_paid_twice`).  With lists that repeat
nothing that is due, every entry is paid at most once and the claims stay
covered (`withdrawals_pay_what_is_due`).
-/

import BabyLst.Hub.Ledger

namespace BabyLst
namespace Hub

open Lib Std

/-- What the entry of a user in a batch is due: nothing before the batch is
released, or where there is no entry. -/
def Storage.due (st : Storage) (user : Addr) (b : ℕ) : ℕ :=
  match st.unstakeWaitList[(user, b)]? with
  | some amount => st.payout b amount
  | none => 0

/-- All that is due. -/
def Storage.claims (st : Storage) : ℕ :=
  total (fun k amount => st.payout k.2 amount) st.unstakeWaitList

/-- What is due to a user in the different batches of a list. -/
def Storage.dueIn (st : Storage) (user : Addr) (batchIds : List ℕ) : ℕ :=
  (batchIds.dedup.map (st.due user)).sum

/-- Nothing is due to the user in the batches that the list repeats. -/
def Storage.RepeatsPayNothing (st : Storage) (user : Addr) (batchIds : List ℕ) : Prop :=
  ∀ b, 1 < batchIds.count b → st.due user b = 0

/-- The coins of a response that go to an address. -/
def sentTo (receiver : Addr) (messages : List CosmosMsg) : ℕ :=
  (messages.map fun m => match m with
    | .bankSend toAddress amount => if toAddress = receiver then amount.amount else 0
    | _ => 0).sum

/-! ### What a withdrawal pays -/

theorem sum_listedEntries (st : Storage) (user : Addr) (batchIds : List ℕ) :
    ((listedEntries st.unstakeWaitList user batchIds).map fun e => st.payout e.1 e.2).sum =
      (batchIds.map (st.due user)).sum := by
  induction batchIds with
  | nil => rfl
  | cons b batchIds ih =>
    unfold listedEntries at ih ⊢
    rw [List.map_cons, List.sum_cons, ← ih, List.filterMap_cons]
    cases hb : st.unstakeWaitList[(user, b)]? with
    | none => simp [Storage.due, hb]
    | some amount => simp [Storage.due, hb]

theorem mem_requestedEntries {waitList : WaitList} {user : Addr} {batchIds : Option (List ℕ)}
    {e : ℕ × ℕ} (h : e ∈ requestedEntries waitList user batchIds) :
    waitList[(user, e.1)]? = some e.2 := by
  cases batchIds with
  | none =>
    simp only [requestedEntries, userEntries, List.mem_map, List.mem_filter,
      decide_eq_true_eq] at h
    obtain ⟨⟨⟨u, b⟩, amount⟩, ⟨hmem, rfl⟩, rfl⟩ := h
    exact ExtTreeMap.mem_toList_iff_getElem?_eq_some.1 hmem
  | some ids =>
    simp only [requestedEntries, listedEntries, List.mem_filterMap, Option.map_eq_some_iff] at h
    obtain ⟨b, -, amount, hb, rfl⟩ := h
    exact hb

/-- The entries of one user are of different batches. -/
theorem nodup_userEntries (waitList : WaitList) (user : Addr) :
    ((userEntries waitList user).map Prod.fst).Nodup := by
  unfold userEntries
  rw [List.map_map, List.Nodup, List.pairwise_map, List.pairwise_filter]
  refine waitList.distinct_keys_toList.imp ?_
  intro e e' hne he he' heq
  rw [decide_eq_true_eq] at he he'
  refine hne ?_
  rw [cmp_eq_iff]
  exact Prod.ext (he.trans he'.symm) heq

theorem sublist_listedEntries (waitList : WaitList) (user : Addr) (batchIds : List ℕ) :
    ((listedEntries waitList user batchIds).map Prod.fst).Sublist batchIds := by
  induction batchIds with
  | nil => exact List.Sublist.slnil
  | cons b batchIds ih =>
    unfold listedEntries at ih ⊢
    rw [List.filterMap_cons]
    cases waitList[(user, b)]? with
    | none => exact ih.cons b
    | some amount => exact ih.cons_cons b

/-- What a withdrawal looks at twice is due nothing, if that is so of its list. -/
theorem due_of_repeated {st : Storage} {user : Addr} {batchIds : Option (List ℕ)}
    (careful : ∀ ids, batchIds = some ids → st.RepeatsPayNothing user ids) {b : ℕ}
    (h : 1 < ((requestedEntries st.unstakeWaitList user batchIds).map Prod.fst).count b) :
    st.due user b = 0 := by
  cases batchIds with
  | none =>
    have hone := List.nodup_iff_count_le_one.1 (nodup_userEntries st.unstakeWaitList user) b
    exact absurd h (Nat.not_lt.2 hone)
  | some ids =>
    have hsub := sublist_listedEntries st.unstakeWaitList user ids
    exact careful ids rfl b (Nat.lt_of_lt_of_le h (hsub.count_le b))

/-- A withdrawal pays what is due in the batches it deletes, each as often as it
is listed. -/
theorem withdrawal_eq (st : Storage) (user : Addr) (batchIds : Option (List ℕ)) :
    st.withdrawal user batchIds = ((st.finishedBatches user batchIds).map (st.due user)).sum := by
  have key : ∀ l : List (ℕ × ℕ), (∀ e ∈ l, st.unstakeWaitList[(user, e.1)]? = some e.2) →
      (l.map fun e => st.payout e.1 e.2).sum =
        (((l.filter fun e => st.released e.1).map (·.1)).map (st.due user)).sum := by
    intro l
    induction l with
    | nil => exact fun _ => rfl
    | cons e l ih =>
      intro hl
      have he := hl e (List.mem_cons_self ..)
      have ih := ih fun e' he' => hl e' (List.mem_cons_of_mem _ he')
      rw [List.map_cons, List.sum_cons, ih]
      cases hr : st.released e.1 with
      | true => simp [hr, Storage.due, he]
      | false => simp [hr, st.payout_of_not_released hr]
  exact key _ fun e he => mem_requestedEntries he

/-- Deleting entries takes what was due in them out of the claims, if none is
counted twice. -/
theorem claims_removeUnstakeWaitList (user : Addr) (bs : List ℕ) :
    ∀ st : Storage, st.RepeatsPayNothing user bs →
      (removeUnstakeWaitList st bs user).claims + (bs.map (st.due user)).sum = st.claims := by
  induction bs with
  | nil => exact fun st _ => rfl
  | cons b bs ih =>
    intro st hrep
    let st₁ : Storage := { st with unstakeWaitList := st.unstakeWaitList.erase (user, b) }
    have hdue₁ : ∀ b', st₁.due user b' = if b = b' then 0 else st.due user b' := by
      intro b'
      show (match (st.unstakeWaitList.erase (user, b))[(user, b')]? with
        | some amount => st.payout b' amount
        | none => 0) = _
      rw [getElem?_erase_eq]
      by_cases hb : b = b'
      · simp [hb]
      · simp [hb, Storage.due]
    have hclaims : st₁.claims + st.due user b = st.claims := by
      show total (fun k amount => st.payout k.2 amount) (st.unstakeWaitList.erase (user, b)) + _ = _
      unfold Storage.due
      cases hk : st.unstakeWaitList[(user, b)]? with
      | none =>
        rw [erase_eq_of_none hk]
        rfl
      | some amount => exact total_erase_add (fun k amount => st.payout k.2 amount) hk
    have hrest : bs.map (st₁.due user) = bs.map (st.due user) := by
      refine List.map_congr_left fun b' hb' => ?_
      rw [hdue₁]
      split_ifs with heq
      · subst heq
        refine (hrep b ?_).symm
        rw [List.count_cons_self]
        have := List.count_pos_iff.2 hb'
        omega
      · rfl
    have hrep₁ : st₁.RepeatsPayNothing user bs := by
      intro b' hb'
      rw [hdue₁]
      split_ifs
      · rfl
      · exact hrep b' (Nat.lt_of_lt_of_le hb' (List.count_le_count_cons ..))
    have hih := ih st₁ hrep₁
    rw [hrest] at hih
    show (removeUnstakeWaitList st₁ bs user).claims + _ = _
    rw [List.map_cons, List.sum_cons]
    omega

/-- **A withdrawal takes what it pays out of the claims**, if its list repeats
nothing that is due. -/
theorem claims_withdrawal (st : Storage) (user : Addr) (batchIds : Option (List ℕ))
    (careful : ∀ ids, batchIds = some ids → st.RepeatsPayNothing user ids) :
    (removeUnstakeWaitList st (st.finishedBatches user batchIds) user).claims +
      st.withdrawal user batchIds = st.claims := by
  rw [withdrawal_eq]
  refine claims_removeUnstakeWaitList user _ st fun b hb => due_of_repeated careful ?_
  have hsub : (st.finishedBatches user batchIds).Sublist
      ((requestedEntries st.unstakeWaitList user batchIds).map Prod.fst) :=
    (List.filter_sublist).map _
  exact Nat.lt_of_lt_of_le hb (hsub.count_le b)

/-! ### What a release makes due -/

/-- The worth of the entries of a closed batch, floored user by user, is at most
what the batch takes to release. -/
theorem total_mulFloor_le {st : Storage} {b : ℕ} {h : UnstakeHistory} (ledger : BatchLedger st)
    (hb : st.unstakeHistory[b]? = some h) (hr : h.released = false) :
    total (fun k amount => if k.2 = b then h.lstAppliedExchangeRate.mulFloor amount else 0)
      st.unstakeWaitList ≤ h.required := by
  have hterm : ∀ (k : Addr × ℕ) (amount : ℕ), st.unstakeWaitList[k]? = some amount →
      (if k.2 = b then h.lstAppliedExchangeRate.mulFloor amount else 0) =
        (if k.2 = b then amount else 0) * h.lstWithdrawRate.atomics / DECIMAL_FRACTIONAL := by
    intro k amount _
    rw [ledger.rates_eq b h hb]
    split_ifs
    · rfl
    · simp
  rw [total_congr hterm]
  refine (total_div_le _ _ _).trans ?_
  rw [total_mul_right]
  show st.inBatch b * _ / _ ≤ _
  rw [ledger.unreleased b h hb hr]
  rfl

/-- **A release makes due at most what it takes.** -/
theorem Release.claims_le {st : Storage} {cutoff balance left : ℕ}
    {released : List (ℕ × UnstakeHistory)} (ledger : BatchLedger st)
    (h : Release st.unstakeHistory cutoff st.state.lastProcessedBatch balance released left) :
    (st.afterRelease released).claims ≤
      st.claims + (released.map fun e => e.2.required).sum := by
  have hpay : ∀ (k : Addr × ℕ) (amount : ℕ), st.unstakeWaitList[k]? = some amount →
      (st.afterRelease released).payout k.2 amount ≤ st.payout k.2 amount +
        (released.map fun e =>
          if k.2 = e.1 then e.2.lstAppliedExchangeRate.mulFloor amount else 0).sum := by
    intro k amount _
    unfold Storage.payout
    cases hb : (st.afterRelease released).unstakeHistory[k.2]? with
    | none => exact Nat.zero_le _
    | some e =>
      obtain ⟨e₀, he₀, he, hrel⟩ := h.getElem?_inv hb
      simp only [he₀]
      by_cases hr : e.released = true
      · rw [if_pos hr]
        rcases hrel.1 hr with hr₀ | hin
        · rw [if_pos hr₀, he]
          exact Nat.le_add_right _ _
        · have hmem : k.2 ∈ released.map Prod.fst := by
            rw [h.ids, List.mem_range'_1]
            omega
          obtain ⟨e', he', heq⟩ := List.mem_map.1 hmem
          have hsame : e'.2 = e₀ := by
            have := (h.found e' he').1
            rw [heq, he₀] at this
            exact (Option.some.inj this).symm
          refine Nat.le_trans ?_ (Nat.le_add_left _ _)
          refine Nat.le_trans ?_ (List.single_le_sum (fun _ _ => Nat.zero_le _) _
            (List.mem_map_of_mem he'))
          rw [if_pos heq.symm, hsame, he]
      · rw [if_neg hr]
        exact Nat.zero_le _
  have hle : (st.afterRelease released).claims ≤ total (fun k amount => st.payout k.2 amount +
      (released.map fun e =>
        if k.2 = e.1 then e.2.lstAppliedExchangeRate.mulFloor amount else 0).sum)
      st.unstakeWaitList := total_le_total hpay
  rw [total_add, total_sum_map] at hle
  refine hle.trans (Nat.add_le_add_left (List.sum_le_sum fun e he => ?_) _)
  exact total_mulFloor_le ledger (h.found e he).1 (h.found e he).2.1

/-! ### The claims are covered -/

/-- **The unclaimed balance is enough for what is due.** -/
def Storage.Covered (st : Storage) : Prop := st.claims ≤ st.state.unclaimedUnstakedBalance

/-- A withdrawal whose list repeats nothing that is due, as it finds the
storage. -/
def Careful (q : Querier) (st : Storage) (env : Env) (info : MessageInfo) (msg : HubMsg) : Prop :=
  ∀ batchIds, msg = .withdrawUnstakedForBatches batchIds →
    ∀ st₁, atWithdrawal q st env = .ok st₁ → st₁.RepeatsPayNothing info.sender batchIds

theorem Withdrawn.covered {q : Querier} {st st' : Storage} {env : Env} {info : MessageInfo}
    {batchIds : Option (List ℕ)} {res : Response} (h : Withdrawn q st env info batchIds st' res)
    (ledger : BatchLedger st) (covered : st.Covered)
    (careful : Careful q st env info (withdrawMsg batchIds)) : st'.Covered := by
  obtain @⟨free, left, amount, released, res, free_eq, old, unclaimed_le, release, amount_eq, pos,
    enough, messages_eq, found⟩ := h
  have hcareful : ∀ ids, batchIds = some ids →
      (st.afterRelease released).RepeatsPayNothing info.sender ids := by
    rintro ids rfl
    exact careful ids rfl _ found
  have hclaims := claims_withdrawal _ _ _ hcareful
  rw [← amount_eq] at hclaims
  have hle := release.claims_le ledger
  have hspent := release.spent
  unfold Storage.Covered at covered ⊢
  show (removeUnstakeWaitList (st.afterRelease released) _ info.sender).claims ≤
    free - amount - left
  omega

/-- A request adds nothing to the claims: its batch is open. -/
theorem claims_noted {st : Storage} (ledger : BatchLedger st) (sender : Addr) (amount : ℕ) :
    (st.noted sender amount).claims = st.claims := by
  have hopen : st.unstakeHistory[st.currentBatch.id]? = none := by
    cases hb : st.unstakeHistory[st.currentBatch.id]? with
    | none => rfl
    | some e => exact absurd ((ledger.closed_iff _).1 ⟨e, hb⟩).2 (Nat.lt_irrefl _)
  have hzero : ∀ v, st.payout st.currentBatch.id v = 0 := fun v => by simp [Storage.payout, hopen]
  show total (fun k amount => st.payout k.2 amount) (st.unstakeWaitList.insert _ _) = _
  rw [total_insert, hzero, Nat.add_zero]
  exact total_erase_of_zero fun v => hzero v

/-- Closing a batch makes nothing due. -/
theorem Completion.claims_eq {q : Querier} {st st' : Storage} {env : Env}
    {batch batch' : CurrentBatch} {messages : List CosmosMsg}
    (h : Completion q st env batch st' batch' messages)
    (ledger : BatchLedger { st with currentBatch := batch }) :
    st'.claims = st.claims ∧
      st'.state.unclaimedUnstakedBalance = st.state.unclaimedUnstakedBalance := by
  have hopen : st.unstakeHistory[batch.id]? = none := by
    cases hb : st.unstakeHistory[batch.id]? with
    | none => rfl
    | some e => exact absurd ((ledger.closed_iff _).1 ⟨e, hb⟩).2 (Nat.lt_irrefl _)
  cases h with
  | stillOpen actual => exact ⟨rfl, actual.frame.2.1⟩
  | closed actual =>
    refine ⟨total_congr fun k amount _ => ?_, actual.frame.2.1⟩
    unfold Storage.payout
    dsimp only
    rw [getElem?_insert_eq]
    by_cases hk : batch.id = k.2
    · rw [if_pos hk, ← hk, hopen]
      rfl
    · rw [if_neg hk]

/-- **Every accepted call keeps the claims covered**, if it is no withdrawal with
a list that repeats something due. -/
theorem Effect.covered {q : Querier} {st st' : Storage} {env : Env} {info : MessageInfo}
    {msg : HubMsg} {res : Response} (h : Effect q st env info msg st' res)
    (ledger : BatchLedger st) (covered : st.Covered) (careful : Careful q st env info msg) :
    st'.Covered := by
  unfold Storage.Covered at covered ⊢
  cases h with
  | stake h =>
    obtain ⟨-, -, -, actual⟩ := h
    refine covered.trans_eq ?_
    exact actual.frame.2.1.symm
  | unstake msg_eq token_eq h =>
    obtain ⟨hclaims, hun⟩ := h.claims_eq (ledger.noted _ _)
    rw [hclaims, hun, claims_noted ledger]
    exact covered
  | withdraw h => exact h.covered ledger covered careful
  | @release free left released res free_eq unclaimed_le h left_le =>
    have hle := h.claims_le ledger
    have hspent := h.spent
    show (st.afterRelease released).claims ≤ free - left
    omega
  | checkSlashing h =>
    refine covered.trans_eq ?_
    exact h.frame.2.1.symm
  | nothingRequested => exact covered
  | processUndelegations ne h =>
    obtain ⟨hclaims, hun⟩ := h.claims_eq ledger
    rw [hclaims, hun]
    exact covered
  | updateParams => exact covered
  | updateConfig => exact covered
  | redelegate => exact covered
  | updateGlobalIndex => exact covered

/-- **A withdrawal from a solvent hub does not fail in a checked subtraction**:
the free balance is enough for the unclaimed one, and so for the payment and
what the release leaves. -/
theorem avoids_executeWithdrawUnstakedImpl {q : Querier} {st : Storage} {env : Env}
    {info : MessageInfo} {batchIds : Option (List ℕ)} (ledger : BatchLedger st)
    (covered : st.Covered)
    (solvent : st.state.unclaimedUnstakedBalance +
      (st.pendingDelegation.current env.block.height).1 ≤
        q.balance env.contract st.parameters.stakingCoinDenom)
    (careful : Careful q st env info (withdrawMsg batchIds)) :
    Avoids Fault.IsOverflow (executeWithdrawUnstakedImpl q st env info batchIds) := by
  have hfree : Avoids Fault.IsOverflow (actualFreeBalance q st env) := by
    unfold actualFreeBalance
    refine Avoids.bind ?_ fun r hr => ?_
    · unfold getPendingDelegationAmount
      refine (avoids_strictSub (by simp)).bind fun _ _ => ?_
      split_ifs
      · exact avoids_ok _
      · exact avoids_ok _
    · rw [getPendingDelegationAmount_eq_ok] at hr
      refine avoids_checkedSub_of_le ?_
      rw [← hr.2]
      omega
  unfold executeWithdrawUnstakedImpl
  refine (avoids_strictSub (by simp)).bind fun cutoff hcutoff => ?_
  refine hfree.bind fun free hfree => ?_
  have hun : st.state.unclaimedUnstakedBalance ≤ free := by
    rw [actualFreeBalance_eq_ok] at hfree
    omega
  refine (avoids_processWithdrawRate hun).bind fun r hrate => ?_
  obtain ⟨st₁, events, left⟩ := r
  refine (avoids_finishedAmount (by simp)).bind fun r hamount => ?_
  obtain ⟨amount, bs⟩ := r
  -- what is paid is due, and what is due is unclaimed or was just released
  have henough : amount + left ≤ free := by
    have hfound : atWithdrawal q st env = .ok st₁ := by
      simp only [atWithdrawal, bind_eq_ok, Prod.exists, pure_eq_ok]
      exact ⟨cutoff, hcutoff, free, hfree, st₁, events, left, hrate, rfl⟩
    obtain ⟨-, released, rfl, hrel⟩ := processWithdrawRate_ok hrate
    obtain rfl := (Prod.mk.inj (finishedAmount_eq_ok.1 hamount).2).1
    have hclaims := claims_withdrawal (st.afterRelease released) info.sender batchIds
      fun ids hids => careful ids (by rw [hids]; rfl) _ hfound
    have hle := hrel.claims_le ledger
    have hspent := hrel.spent
    unfold Storage.Covered at covered
    omega
  dsimp only
  refine (avoids_require (by simp)).bind fun _ _ => ?_
  refine (avoids_checkedSub_of_le (by omega)).bind fun rest hrest => ?_
  rw [checkedSub_eq_ok] at hrest
  refine (avoids_checkedSub_of_le (by omega)).bind fun _ _ => ?_
  exact avoids_ok _

/-! ### Paying every entry once -/

/-- The entries, of user and batch, that a withdrawal is paid something for. -/
def paidEntries (q : Querier) (st : Storage) (env : Env) (user : Addr)
    (batchIds : Option (List ℕ)) : List (Addr × ℕ) :=
  match atWithdrawal q st env with
  | .ok st => (((requestedEntries st.unstakeWaitList user batchIds).filter
      fun e => st.payout e.1 e.2 ≠ 0).map Prod.fst).map (Prod.mk user)
  | .error _ => []

/-- The entries that a call is paid something for. -/
def payments (s : Clocked) (c : Call) : List (Addr × ℕ) :=
  match c.msg with
  | .withdrawUnstaked => paidEntries c.querier s.st c.env c.info.sender none
  | .withdrawUnstakedForBatches batchIds =>
    paidEntries c.querier s.st c.env c.info.sender (some batchIds)
  | _ => []

/-- One accepted call, no withdrawal with a list that repeats something due. -/
def CarefulStep (s : Clocked) (c : Call) (s' : Clocked) : Prop :=
  Step s c s' ∧ Careful c.querier s.st c.env c.info c.msg

/-- No entry is left at `k`, nor will one ever be. -/
def Storage.Gone (st : Storage) (k : Addr × ℕ) : Prop :=
  st.unstakeWaitList[k]? = none ∧ k.2 < st.currentBatch.id

theorem Storage.Gone.noted {st : Storage} {k : Addr × ℕ} (h : st.Gone k) (sender : Addr)
    (amount : ℕ) : (st.noted sender amount).Gone k := by
  refine ⟨?_, h.2⟩
  show (st.unstakeWaitList.insert _ _)[k]? = none
  rw [getElem?_insert_eq, if_neg]
  · exact h.1
  · rintro rfl
    exact Nat.lt_irrefl _ h.2

theorem Completion.gone {q : Querier} {st st' : Storage} {env : Env}
    {batch batch' : CurrentBatch} {messages : List CosmosMsg} {k : Addr × ℕ}
    (h : Completion q st env batch st' batch' messages) (hid : batch.id = st.currentBatch.id)
    (hk : st.Gone k) : st'.Gone k := by
  have hlt := hk.2
  cases h with
  | stillOpen => exact ⟨hk.1, by dsimp only; omega⟩
  | closed => exact ⟨hk.1, by dsimp only; omega⟩

/-- What is gone stays gone. -/
theorem Effect.gone {q : Querier} {st st' : Storage} {env : Env} {info : MessageInfo}
    {msg : HubMsg} {res : Response} {k : Addr × ℕ} (h : Effect q st env info msg st' res)
    (hk : st.Gone k) : st'.Gone k := by
  cases h with
  | stake h =>
    obtain ⟨-⟩ := h
    exact hk
  | unstake msg_eq token_eq h => exact h.gone rfl (hk.noted _ _)
  | withdraw h =>
    obtain ⟨-⟩ := h
    refine ⟨?_, hk.2⟩
    rw [removeUnstakeWaitList_getElem?]
    exact ite_eq_left_iff.2 fun _ => hk.1
  | release => exact hk
  | checkSlashing => exact hk
  | nothingRequested => exact hk
  | processUndelegations ne h => exact h.gone rfl hk
  | updateParams => exact hk
  | updateConfig => exact hk
  | redelegate => exact hk
  | updateGlobalIndex => exact hk

theorem Withdrawn.paidEntries {q : Querier} {st st' : Storage} {env : Env} {info : MessageInfo}
    {batchIds : Option (List ℕ)} {res : Response} (h : Withdrawn q st env info batchIds st' res)
    (ledger : BatchLedger st) (careful : Careful q st env info (withdrawMsg batchIds)) :
    (paidEntries q st env info.sender batchIds).Nodup ∧
      ∀ k ∈ paidEntries q st env info.sender batchIds,
        st.unstakeWaitList[k]? ≠ none ∧ st'.Gone k := by
  obtain @⟨free, left, amount, released, res, -, -, -, release, -, -, -, -, found⟩ := h
  have hcareful : ∀ ids, batchIds = some ids →
      (st.afterRelease released).RepeatsPayNothing info.sender ids := by
    rintro ids rfl
    exact careful ids rfl _ found
  have hdue : ∀ e ∈ requestedEntries (st.afterRelease released).unstakeWaitList info.sender
      batchIds, (st.afterRelease released).due info.sender e.1 =
        (st.afterRelease released).payout e.1 e.2 := fun e he => by
    rw [Storage.due, mem_requestedEntries he]
  unfold Hub.paidEntries
  rw [found]
  refine ⟨List.Nodup.map (Prod.mk_right_injective info.sender) ?_, ?_⟩
  · rw [List.nodup_iff_count_le_one]
    intro b
    by_contra hcount
    have hmem := List.count_pos_iff.1 (Nat.lt_of_lt_of_le Nat.one_pos (Nat.not_le.1 hcount).le)
    obtain ⟨e, he, rfl⟩ := List.mem_map.1 hmem
    obtain ⟨he, hpay⟩ := List.mem_filter.1 he
    have hzero := due_of_repeated hcareful (b := e.1) (Nat.lt_of_lt_of_le (Nat.not_le.1 hcount)
      (((List.filter_sublist).map Prod.fst).count_le _))
    rw [hdue e he] at hzero
    simp [hzero] at hpay
  · intro k hk
    obtain ⟨b, hb, rfl⟩ := List.mem_map.1 hk
    obtain ⟨e, he, rfl⟩ := List.mem_map.1 hb
    obtain ⟨he, hpay⟩ := List.mem_filter.1 he
    have hrel : (st.afterRelease released).released e.1 = true := by
      by_contra hr
      rw [Bool.not_eq_true] at hr
      simp [Storage.payout_of_not_released hr] at hpay
    refine ⟨?_, ?_, ?_⟩
    · have hentry : st.unstakeWaitList[(info.sender, e.1)]? = some e.2 := mem_requestedEntries he
      simp [hentry]
    · rw [removeUnstakeWaitList_getElem?, if_pos]
      refine ⟨rfl, ?_⟩
      exact List.mem_map.2 ⟨e, List.mem_filter.2 ⟨he, hrel⟩, rfl⟩
    · unfold Storage.released at hrel
      cases hb : (st.afterRelease released).unstakeHistory[e.1]? with
      | none => simp [hb] at hrel
      | some h => exact (((release.ledger ledger).closed_iff e.1).1 ⟨h, hb⟩).2

/-- The payments of an accepted call are of different entries, that are there
before it and gone after it. -/
theorem CarefulStep.payments {s s' : Clocked} {c : Call} (h : CarefulStep s c s')
    (ledger : BatchLedger s.st) : (payments s c).Nodup ∧
      ∀ k ∈ payments s c, s.st.unstakeWaitList[k]? ≠ none ∧ s'.st.Gone k := by
  obtain ⟨hstep, careful⟩ := h
  have heff := hstep.effect
  unfold Hub.payments
  generalize c.msg = msg at heff careful ⊢
  generalize s'.st = st', c.response = res at heff ⊢
  cases heff with
  | @withdraw batchIds st' res h => cases batchIds <;> exact h.paidEntries ledger careful
  | @stake t st' res h => cases t <;> simp [stakeMsg]
  | unstake msg_eq => rcases msg_eq with ⟨rfl, -, -⟩ | ⟨rfl, -, -⟩ <;> simp
  | _ => simp

/-- **A hub whose withdrawals repeat nothing that is due keeps the claims
covered.** -/
theorem Created.covered {msg : InstantiateMsg} {s t : Clocked} {tr : List (Call × Clocked)}
    (created : Created msg s) (run : Run CarefulStep s tr t) : t.Ledger ∧ t.st.Covered := by
  refine run.invariant (P := fun t => t.Ledger ∧ t.st.Covered) ⟨created.ledger, ?_⟩ ?_
  · obtain ⟨env, info, res, -, h⟩ := created
    unfold Storage.Covered Storage.claims
    rw [(instantiate_ok h).waitList_eq, total_empty]
    exact Nat.zero_le _
  · rintro t c u ⟨hl, hcov⟩ hstep
    exact ⟨(hstep.1.ledger hl).1, hstep.1.effect.covered hl.1 hcov hstep.2⟩

/-- **Who is paid what.**  The amount a withdrawal sends for a list of batches is
what is due in its different batches exactly when the list repeats nothing that
is due; and in a run of such withdrawals, with any other calls in between, every
entry is paid at most once and the unclaimed balance stays enough for all that
is due. -/
theorem withdrawals_pay_what_is_due (q : Querier) (st st' : Storage) (env : Env)
    (info : MessageInfo) (batchIds : List ℕ) (res : Response) (msg : InstantiateMsg)
    (s t : Clocked) (tr : List (Call × Clocked)) :
    (executeWithdrawUnstakedForBatches q st env info batchIds = .ok (st', res) →
      ∃ st₁, atWithdrawal q st env = .ok st₁ ∧
        (sentTo info.sender res.messages = st₁.dueIn info.sender batchIds ↔
          st₁.RepeatsPayNothing info.sender batchIds)) ∧
    (Created msg s → Run CarefulStep s tr t →
      (along payments s tr).Nodup ∧ t.st.Covered) := by
  refine ⟨fun h => ?_, fun created run => ?_⟩
  · obtain @⟨free, left, amount, released, res, -, -, -, -, amount_eq, -, -, messages_eq, found⟩ :=
      executeWithdrawUnstakedImpl_ok h
    refine ⟨_, found, ?_⟩
    have hsent : sentTo info.sender res.messages =
        (batchIds.map ((st.afterRelease released).due info.sender)).sum := by
      have hone : sentTo info.sender
          [.bankSend info.sender ⟨st.parameters.stakingCoinDenom, amount⟩] = amount := by
        simp [sentTo]
      rw [messages_eq, hone, amount_eq, ← sum_listedEntries]
      rfl
    rw [hsent]
    exact sum_map_eq_sum_dedup_iff _ _
  · have hrun := run.history (P := fun tr t => (along payments s tr).Nodup ∧
      ∀ k ∈ along payments s tr, t.st.Gone k) ⟨List.nodup_nil, by simp [along]⟩ ?_
    · exact ⟨hrun.1, (created.covered run).2⟩
    · rintro tr t c u run ⟨hnodup, hgone⟩ hstep
      obtain ⟨hn, hnew⟩ := hstep.payments (created.covered run).1.1
      rw [run.along_concat]
      refine ⟨List.nodup_append.2 ⟨hnodup, hn, ?_⟩, ?_⟩
      · rintro k hk _ hk' rfl
        exact (hnew k hk').1 (hgone k hk).1
      · intro k hk
        rcases List.mem_append.1 hk with hk | hk
        · exact hstep.1.effect.gone (hgone k hk)
        · exact (hnew k hk).2

/-! ### A batch of two users on sample answers -/

/-- Two users ask for 30 each, the second when the batch is due. -/
def sampleTwoUsers : List Line :=
  [(sampleQuerier 100 100 0, sampleEnv 600, ⟨"alice", []⟩, .unstake 30),
   (sampleQuerier 100 70 0, sampleEnv 900, ⟨"bob", []⟩, .unstake 30)]

/-- The first user withdraws for a list of batches, when 60 have arrived. -/
def sampleListed (batchIds : List ℕ) : Line :=
  (sampleQuerier 40 40 60, sampleEnv 2100, ⟨"alice", []⟩, .withdrawUnstakedForBatches batchIds)

/-- The hub when the batch is closed. -/
def sampleClosed : Clocked := playEnd Clocked.exec sampleHub (sampleStart ++ sampleTwoUsers)

/-- A withdrawal for the list `[1]`: what is due is sent, the entry is the only
one paid for in the run, and what is due to the other user stays covered. -/
theorem withdrawals_pay_what_is_due_sample :
    let t := sampleClosed
    let c := t.call (sampleListed [1])
    let u := t.next (sampleListed [1])
    (∃ st₁, atWithdrawal c.querier t.st c.env = .ok st₁ ∧
      sentTo "alice" c.response.messages = st₁.dueIn "alice" [1]) ∧
    payments t c = [("alice", 1)] ∧
    ∃ tr, Run CarefulStep sampleHub tr u ∧ (along payments sampleHub tr).Nodup ∧ u.st.Covered := by
  intro t c u
  have hrep : ∀ st : Storage, st.RepeatsPayNothing "alice" [1] := by
    intro st b hb
    rw [List.count_singleton] at hb
    split_ifs at hb
    · omega
    · omega
  have step : Step t c u := Clocked.step_of_accepts (by decide +kernel)
  have careful : Careful c.querier t.st c.env c.info c.msg := by
    rintro _ ⟨rfl⟩ st₁ -
    exact hrep st₁
  have msgs : (playTrace Clocked.exec sampleHub (sampleStart ++ sampleTwoUsers)).map
      (fun e => e.1.msg) = [.updateConfig none (some "token") (some "registry") (some "dispatcher"),
        .stake, .unstake 30, .unstake 30] := by decide +kernel
  have before : Run CarefulStep sampleHub
      (playTrace Clocked.exec sampleHub (sampleStart ++ sampleTwoUsers)) t :=
    (played_run Clocked.exec_sound _ _ (by decide +kernel)).mono fun e he s t hstep => by
      refine ⟨hstep, fun ids hids => ?_⟩
      have hmem := List.mem_map_of_mem (f := fun e => e.1.msg) he
      rw [msgs, hids] at hmem
      simp at hmem
  have run := Run.tail before (⟨step, careful⟩ : CarefulStep t c u)
  have accepted : execute c.querier t.st c.env c.info (.withdrawUnstakedForBatches [1]) =
    .ok (u.st, c.response) := step.accepted
  simp only [execute, bind_eq_ok] at accepted
  obtain ⟨_, -, call⟩ := accepted
  obtain ⟨hcall, hrun⟩ := withdrawals_pay_what_is_due c.querier t.st u.st c.env c.info [1]
    c.response sampleMsg sampleHub u _
  obtain ⟨st₁, found, hiff⟩ := hcall call
  exact ⟨⟨st₁, found, hiff.2 (hrep st₁)⟩, by decide +kernel, _, run, hrun sampleHub_created run⟩

/-- **A repeated batch is paid twice**: for the list `[1, 1]` the hub sends 60
where 30 are due, and nothing is left for the 30 of the other user. -/
theorem repeated_batch_is_paid_twice :
    ∃ s tr t c u st₁, Created sampleMsg s ∧ Run Step s tr t ∧ Step t c u ∧
      c.info.sender = "alice" ∧ c.msg = .withdrawUnstakedForBatches [1, 1] ∧
      atWithdrawal c.querier t.st c.env = .ok st₁ ∧
      sentTo "alice" c.response.messages = 60 ∧ st₁.dueIn "alice" [1, 1] = 30 ∧
      u.st.due "bob" 1 = 30 ∧ u.st.state.unclaimedUnstakedBalance = 0 := by
  refine ⟨sampleHub, playTrace Clocked.exec sampleHub (sampleStart ++ sampleTwoUsers),
    sampleClosed, sampleClosed.call (sampleListed [1, 1]),
    sampleClosed.next (sampleListed [1, 1]),
    ((atWithdrawal (sampleQuerier 40 40 60) sampleClosed.st (sampleEnv 2100)).toOption.getD
      sampleClosed.st), sampleHub_created, played_run Clocked.exec_sound _ _ (by decide +kernel),
    Clocked.step_of_accepts (by decide +kernel), rfl, rfl, by rfl, by decide +kernel,
    by decide +kernel, by decide +kernel, by decide +kernel⟩

end Hub
end BabyLst
