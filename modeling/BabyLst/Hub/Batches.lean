/-
# Withdrawals batch by batch

A withdrawal for a list of batches looks up the listed entries of the user; one
without a list scans all of them.  On a settled hub two withdrawals for disjoint
lists do what one does for both lists together (`afterPayoutFor_append`), so any
number of them do what one does for all that they list
(`foldl_afterPayoutFor`).  And listing every batch of the user once, in whatever
order, is as good as the scan (`afterPayoutFor_batchesOf`).
-/

import BabyLst.Hub.Settled

namespace BabyLst
namespace Hub

open Lib Std

variable {user : Addr} {l l' : List ℕ}

/-- The ids in the wait list of a user. -/
def Storage.batchesOf (st : Storage) (user : Addr) : List ℕ :=
  (userEntries st.unstakeWaitList user).map Prod.fst

theorem Storage.nodup_batchesOf (st : Storage) (user : Addr) : (st.batchesOf user).Nodup :=
  nodup_userEntries st.unstakeWaitList user

/-! ### Two lists -/

theorem listedEntries_append (waitList : WaitList) (user : Addr) (l l' : List ℕ) :
    listedEntries waitList user (l ++ l') =
      listedEntries waitList user l ++ listedEntries waitList user l' :=
  List.filterMap_append

/-- Two lists are worth what each of them is. -/
theorem withdrawal_append (st : Storage) (user : Addr) (l l' : List ℕ) :
    st.withdrawal user (some (l ++ l')) =
      st.withdrawal user (some l) + st.withdrawal user (some l') := by
  unfold Storage.withdrawal requestedEntries
  dsimp only
  rw [listedEntries_append, List.map_append, List.sum_append]

theorem finishedBatches_append (st : Storage) (user : Addr) (l l' : List ℕ) :
    st.finishedBatches user (some (l ++ l')) =
      st.finishedBatches user (some l) ++ st.finishedBatches user (some l') := by
  unfold Storage.finishedBatches requestedEntries
  dsimp only
  rw [listedEntries_append, List.filter_append, List.map_append]

/-- Only listed batches are deleted. -/
theorem mem_of_mem_finishedBatches {st : Storage} {b : ℕ}
    (h : b ∈ st.finishedBatches user (some l)) : b ∈ l := by
  have hsub : (st.finishedBatches user (some l)).Sublist
      ((listedEntries st.unstakeWaitList user l).map Prod.fst) := (List.filter_sublist).map _
  exact (hsub.trans (sublist_listedEntries st.unstakeWaitList user l)).mem h

/-- **A withdrawal leaves the entries of other batches as they are.** -/
theorem listedEntries_afterPayoutFor (st : Storage) (disjoint : l.Disjoint l') :
    listedEntries (st.afterPayoutFor user (some l)).unstakeWaitList user l' =
      listedEntries st.unstakeWaitList user l' := by
  unfold listedEntries
  refine List.filterMap_congr fun b hb => congrArg (Option.map _) ?_
  show (removeUnstakeWaitList st (st.finishedBatches user (some l)) user).unstakeWaitList[
    (user, b)]? = _
  rw [removeUnstakeWaitList_getElem?, if_neg fun h => ?_]
  exact disjoint (mem_of_mem_finishedBatches h.2) hb

/-- What a withdrawal pays for other batches stays what it was. -/
theorem withdrawal_afterPayoutFor (st : Storage) (disjoint : l.Disjoint l') :
    (st.afterPayoutFor user (some l)).withdrawal user (some l') = st.withdrawal user (some l') ∧
      (st.afterPayoutFor user (some l)).finishedBatches user (some l') =
        st.finishedBatches user (some l') := by
  unfold Storage.withdrawal Storage.finishedBatches requestedEntries
  dsimp only
  rw [listedEntries_afterPayoutFor st disjoint]
  exact ⟨rfl, rfl⟩

/-- **Two withdrawals for disjoint lists are one** for both lists. -/
theorem afterPayoutFor_append (st : Storage) (disjoint : l.Disjoint l') :
    (st.afterPayoutFor user (some l)).afterPayoutFor user (some l') =
      st.afterPayoutFor user (some (l ++ l')) := by
  obtain ⟨hworth, hbatches⟩ := @withdrawal_afterPayoutFor user _ _ st disjoint
  have hwaitList : ((st.afterPayoutFor user (some l)).afterPayoutFor user
      (some l')).unstakeWaitList = (st.afterPayoutFor user (some (l ++ l'))).unstakeWaitList := by
    unfold Storage.afterPayoutFor at hbatches ⊢
    unfold removeUnstakeWaitList at hbatches ⊢
    dsimp only at hbatches ⊢
    rw [hbatches, finishedBatches_append, List.foldl_append]
  have hunclaimed : ((st.afterPayoutFor user (some l)).afterPayoutFor user
      (some l')).state.unclaimedUnstakedBalance =
        (st.afterPayoutFor user (some (l ++ l'))).state.unclaimedUnstakedBalance := by
    show st.state.unclaimedUnstakedBalance - st.withdrawal user (some l) -
      (st.afterPayoutFor user (some l)).withdrawal user (some l') =
        st.state.unclaimedUnstakedBalance - st.withdrawal user (some (l ++ l'))
    rw [hworth, withdrawal_append, Nat.sub_sub]
  calc (st.afterPayoutFor user (some l)).afterPayoutFor user (some l')
      = { st with
          unstakeWaitList :=
            ((st.afterPayoutFor user (some l)).afterPayoutFor user (some l')).unstakeWaitList
          state := { st.state with
            unclaimedUnstakedBalance := ((st.afterPayoutFor user (some l)).afterPayoutFor user
              (some l')).state.unclaimedUnstakedBalance } } := rfl
    _ = { st with
          unstakeWaitList := (st.afterPayoutFor user (some (l ++ l'))).unstakeWaitList
          state := { st.state with
            unclaimedUnstakedBalance :=
              (st.afterPayoutFor user (some (l ++ l'))).state.unclaimedUnstakedBalance } } := by
      rw [hwaitList, hunclaimed]
    _ = st.afterPayoutFor user (some (l ++ l')) := rfl

/-! ### Every batch of the user -/

/-- To look up every batch of the user is to scan the entries. -/
theorem listedEntries_batchesOf (st : Storage) (user : Addr) :
    listedEntries st.unstakeWaitList user (st.batchesOf user) =
      userEntries st.unstakeWaitList user := by
  unfold listedEntries Storage.batchesOf
  rw [List.filterMap_map]
  have hfound : ∀ e ∈ userEntries st.unstakeWaitList user,
      st.unstakeWaitList[(user, e.1)]?.map (fun amount => (e.1, amount)) = some e := by
    intro e he
    have hrequested : e ∈ requestedEntries st.unstakeWaitList user none := he
    rw [mem_requestedEntries hrequested]
    rfl
  exact (List.filterMap_congr hfound).trans List.filterMap_some

variable {ids : List ℕ}

/-- **To list every batch of the user once is worth the scan.** -/
theorem withdrawal_batchesOf (st : Storage) (perm : ids.Perm (st.batchesOf user)) :
    st.withdrawal user (some ids) = st.withdrawal user none ∧
      (st.finishedBatches user (some ids)).Perm (st.finishedBatches user none) := by
  have hentries : (listedEntries st.unstakeWaitList user ids).Perm
      (userEntries st.unstakeWaitList user) := by
    rw [← listedEntries_batchesOf]
    exact perm.filterMap _
  exact ⟨(hentries.map _).sum_eq, (hentries.filter _).map _⟩

/-- **A withdrawal for every batch of the user is one without a list.** -/
theorem afterPayoutFor_batchesOf (st : Storage) (perm : ids.Perm (st.batchesOf user)) :
    st.afterPayoutFor user (some ids) = st.afterPayoutFor user none := by
  obtain ⟨hworth, hbatches⟩ := withdrawal_batchesOf st perm
  have hremoved : removeUnstakeWaitList st (st.finishedBatches user (some ids)) user =
      removeUnstakeWaitList st (st.finishedBatches user none) user := by
    have hwaitList : (removeUnstakeWaitList st (st.finishedBatches user (some ids))
        user).unstakeWaitList =
          (removeUnstakeWaitList st (st.finishedBatches user none) user).unstakeWaitList := by
      refine ExtTreeMap.ext_getElem? fun k => ?_
      rw [removeUnstakeWaitList_getElem?, removeUnstakeWaitList_getElem?]
      exact if_congr (and_congr_right fun _ => hbatches.mem_iff) rfl rfl
    calc removeUnstakeWaitList st (st.finishedBatches user (some ids)) user
        = { st with
            unstakeWaitList := (removeUnstakeWaitList st
              (st.finishedBatches user (some ids)) user).unstakeWaitList } := rfl
      _ = { st with
            unstakeWaitList :=
              (removeUnstakeWaitList st (st.finishedBatches user none) user).unstakeWaitList } := by
        rw [hwaitList]
      _ = removeUnstakeWaitList st (st.finishedBatches user none) user := rfl
  unfold Storage.afterPayoutFor
  rw [hremoved, hworth]

/-- A withdrawal for a list that repeats nothing pays what is due in it. -/
theorem withdrawal_eq_dueIn (st : Storage) (user : Addr) (nodup : l.Nodup) :
    st.withdrawal user (some l) = st.dueIn user l := by
  unfold Storage.dueIn
  rw [nodup.dedup]
  exact sum_listedEntries st user l

end Hub
end BabyLst
