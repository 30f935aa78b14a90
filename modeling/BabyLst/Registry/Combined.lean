/-
# Redelegating several validators at once

`calculate_delegations` levels the validators it is given.
`process_redelegations` calls it once per excluded validator, each time with the
delegations as they were reported at first: what it has just planned to move is
not counted.  Every plan starts with the same validator, the one that has least.

So one excluded validator leaves the registered ones no further apart than they
were, or than one coin, and several may not: that depends on whether the first of
the registered validators gets too far ahead of one of the others
(`redelegations_keep_balance_iff`).
-/

import BabyLst.Lib.Snapshot
import BabyLst.Registry.Redelegations

namespace BabyLst

open Lib

theorem lacks_eq (amt : ℕ) (vs : List ValidatorResponse) :
    lacks amt vs = evenLacks (delegationsOf vs) amt := by
  unfold lacks evenLacks targetsFor distributeCoins
  rw [targetCoinsPerValidator_eq, length_delegationsOf]

namespace Registry

open Std

/-- What a message redelegates to an address. -/
def redelegatedTo (address : String) : CosmosMsg → ℕ
  | .wasmExecute _ (.hub (.redelegateProxy _ redelegations)) _ =>
    (redelegations.map fun e => if e.1 = address then e.2.amount else 0).sum
  | _ => 0

/-- The delegations of the validators once the messages are carried out. -/
def afterRedelegations (messages : List CosmosMsg) (validators : List ValidatorResponse) : List ℕ :=
  validators.map fun v => v.totalDelegated + (messages.map (redelegatedTo v.address)).sum

/-- **The first validator does not get too far ahead**: listed in ascending order
with the delegations `before`, and with the amounts to move, what it lacks of an
even split for each amount, as far as the amount goes, is at most what is left
for any other, that other's head start, and the larger of one coin and what the
validators are apart. -/
def FirstNotAhead (before amounts : List ℕ) : Prop :=
  ∀ i < before.length, (amounts.map fun a => share a (evenLacks before a) 0).sum ≤
    (before.getD i 0 - before.getD 0 0) +
      (amounts.map fun a => share a (evenLacks before a) i).sum + max 1 (spread before)

instance (before amounts : List ℕ) : Decidable (FirstNotAhead before amounts) :=
  inferInstanceAs (Decidable (∀ i < before.length, _))

variable {hubContract : Addr} {delegations : ExtTreeMap String Coin}
  {active : List ValidatorResponse}

/-- Of amounts listed with distinct addresses, one goes to each. -/
theorem sum_zip_address (vs : List ValidatorResponse) (distinct : (vs.map (·.address)).Nodup) :
    ∀ {plan : List ℕ} {i : ℕ} (hi : i < vs.length), plan.length = vs.length →
      ((vs.zip plan).map fun e => if e.1.address = vs[i].address then e.2 else 0).sum =
        plan.getD i 0 := by
  induction vs with
  | nil =>
    intro plan i hi
    exact absurd hi (Nat.not_lt_zero i)
  | cons v rest ih =>
    intro plan i hi hlen
    obtain ⟨n, plan, rfl⟩ := List.exists_cons_of_length_eq_add_one hlen
    obtain ⟨hnot, hrest⟩ := List.nodup_cons.1 distinct
    rw [List.zip_cons_cons, List.map_cons, List.sum_cons]
    cases i with
    | zero =>
      have hothers : ((rest.zip plan).map fun e =>
          if e.1.address = v.address then e.2 else 0).sum = 0 := by
        refine List.sum_eq_zero fun x hx => ?_
        obtain ⟨e, he, rfl⟩ := List.mem_map.1 hx
        exact if_neg fun heq => hnot (List.mem_map.2 ⟨e.1, (List.of_mem_zip he).1, heq⟩)
      simpa using hothers
    | succ i =>
      have hi' : i < rest.length := Nat.lt_of_succ_lt_succ hi
      have hne : v.address ≠ rest[i].address := fun heq =>
        hnot (List.mem_map.2 ⟨rest[i], List.getElem_mem hi', heq.symm⟩)
      rw [List.getD_cons_succ, ← ih hrest hi' (Nat.succ_injective hlen)]
      simp [hne]

/-- Entries of nothing do not matter. -/
theorem sum_filter_address (l : List (ValidatorResponse × ℕ)) (address : String) :
    ((l.filter fun e => e.2 ≠ 0).map fun e => if e.1.address = address then e.2 else 0).sum =
      (l.map fun e => if e.1.address = address then e.2 else 0).sum := by
  induction l with
  | nil => rfl
  | cons e l ih =>
    by_cases hz : e.2 = 0
    · rw [List.filter_cons_of_neg (by simpa using hz), ih]
      simp [hz]
    · rw [List.filter_cons_of_pos (by simpa using hz), List.map_cons, List.sum_cons, ih,
        List.map_cons, List.sum_cons]

/-- **What one excluded validator gives to the `i`-th registered one.** -/
theorem redelegatedTo_splitOver (distinct : (active.map (·.address)).Nodup) (v : String)
    (coin : Coin) {i : ℕ} (hi : i < active.length) :
    redelegatedTo active[i].address (proxyMsg hubContract (v, splitOver active coin)) =
      share coin.amount (evenLacks (delegationsOf active) coin.amount) i := by
  have hne : active ≠ [] := List.ne_nil_of_length_pos (Nat.zero_lt_of_lt hi)
  obtain ⟨hlen, -⟩ := fill_lacks hne coin.amount
  rw [← getD_fill, ← lacks_eq, ← sum_zip_address active distinct hi hlen, ← sum_filter_address]
  show ((splitOver active coin).map fun e => if e.1 = _ then e.2.amount else 0).sum = _
  rw [splitOver, List.map_map]
  rfl

variable (hubContract delegations) in
/-- **What all of them give to it.** -/
theorem sum_redelegatedTo (distinct : (active.map (·.address)).Nodup) {i : ℕ}
    (hi : i < active.length) (excluded : List String) :
    (((plansFor delegations active excluded).map (proxyMsg hubContract)).map
        (redelegatedTo active[i].address)).sum =
      ((excluded.map (delegatedTo delegations)).map fun a =>
        share a (evenLacks (delegationsOf active) a) i).sum := by
  induction excluded with
  | nil => rfl
  | cons v rest ih =>
    rw [plansFor] at ih ⊢
    rw [List.filterMap_cons, List.map_cons, List.map_cons, List.sum_cons, ← ih]
    cases hv : movable delegations v with
    | none =>
      have hzero : delegatedTo delegations v = 0 := by
        rw [movable, Option.filter_eq_none_iff] at hv
        rw [delegatedTo]
        cases hd : delegations[v]? with
        | none => rfl
        | some coin => simpa using hv coin hd
      rw [hzero]
      simp [share]
    | some coin =>
      have hall := (delegatedTo_eq_of_movable hv).2.2
      simp only [Option.map_some, List.map_cons, List.sum_cons, hall,
        redelegatedTo_splitOver distinct v coin hi]

/-- The registered validators are answered in ascending order. -/
theorem queryValidators_sorted (deps : Deps) (st : Storage) :
    (delegationsOf (queryValidators deps st)).Pairwise (· ≤ ·) := by
  rw [delegationsOf, List.pairwise_map]
  have htotal : Std.Total fun v1 v2 : ValidatorResponse => v1.totalDelegated ≤ v2.totalDelegated :=
    ⟨fun _ _ => Nat.le_total _ _⟩
  have htrans : IsTrans ValidatorResponse fun v1 v2 => v1.totalDelegated ≤ v2.totalDelegated :=
    ⟨fun _ _ _ => Nat.le_trans⟩
  exact List.pairwise_insertionSort _ _

/-- The condition, by where the plans take the validators. -/
theorem firstNotAhead_iff {before amounts : List ℕ} (sorted : before.Pairwise (· ≤ ·)) :
    FirstNotAhead before amounts ↔ ∀ i < before.length,
      raisedTo before amounts 0 ≤ raisedTo before amounts i + max 1 (spread before) := by
  refine forall₂_congr fun i hi => ?_
  have hle := sorted_first sorted hi
  unfold raisedTo
  omega

/-- **One delegation to move is always within the condition.** -/
theorem firstNotAhead_of_one {before amounts : List ℕ} (sorted : before.Pairwise (· ≤ ·))
    {amount : ℕ} (one : amounts.filter (· ≠ 0) = [amount]) : FirstNotAhead before amounts :=
  (firstNotAhead_iff sorted).2 (raisedTo_one sorted one)

section Runs

variable {b : Bech32} {deps : Deps} {info : MessageInfo} {validators : List String}
  {st₀ st : Storage} {tr : List (Call × Storage)}

/-- A third and a fourth validator. -/
def removedValidators : List String :=
  ["bbnvaloper1qgpqyqszqgpqyqszqgpqyqszqgpqyqszftuh4j",
   "bbnvaloper1qvpsxqcrqvpsxqcrqvpsxqcrqvpsxqcrgmakln"]

/-- The addresses of the four validators. -/
def fourAddresses : List (String × String × List ℕ) :=
  sampleAddresses ++
    [("bbnvaloper1qgpqyqszqgpqyqszqgpqyqszqgpqyqszftuh4j", "bbnvaloper", List.replicate 20 2),
     ("bbnvaloper1qvpsxqcrqvpsxqcrqvpsxqcrqvpsxqcrgmakln", "bbnvaloper", List.replicate 20 3)]

/-- A chain that knows the four. -/
def fourDeps (delegations : List Delegation) : Deps :=
  { allDelegations := fun _ => delegations
    validator := fun a => if a ∈ fourAddresses.map Prod.fst then some a else none
    bech32 := tableBech32 fourAddresses
    addrValidate := fun _ => true }

theorem fourDeps_namesByOperator (delegations : List Delegation) :
    (fourDeps delegations).NamesByOperator := by
  intro address v h
  simp only [fourDeps] at h
  split_ifs at h
  exact (Option.some.inj h).symm

/-- A call of the owner. -/
def fourCall (msg : RegistryMsg) : Call := ⟨fourDeps [], ⟨"owner", []⟩, msg⟩

/-- The registry after a call of the owner. -/
def Storage.afterFourCall (st : Storage) (msg : RegistryMsg) : Storage :=
  ((execute (fourDeps []) st ⟨"owner", []⟩ msg).toOption.map Prod.fst).getD st

/-- The registry created with the four validators. -/
def fourStorage : Storage :=
  ((instantiate (fourDeps []) ⟨"owner", []⟩ "hub" (fourAddresses.map Prod.fst)).toOption).getD
    ⟨⟨"", ""⟩, ∅, ∅⟩

/-- The registry once the third and the fourth are removed. -/
def twoLeft : Storage :=
  (removedValidators.map RegistryMsg.removeValidator).foldl Storage.afterFourCall fourStorage

theorem twoLeft_run : ∃ tr, Run (LawfulStep (tableBech32 fourAddresses)) fourStorage tr twoLeft :=
  ⟨_, .tail (a := fourCall (.removeValidator "bbnvaloper1qvpsxqcrqvpsxqcrqvpsxqcrqvpsxqcrgmakln"))
    (.single (a := fourCall (.removeValidator "bbnvaloper1qgpqyqszqgpqyqszqgpqyqszqgpqyqszftuh4j"))
      ⟨⟨[], rfl⟩, rfl, fourDeps_namesByOperator []⟩) ⟨⟨[], rfl⟩, rfl, fourDeps_namesByOperator []⟩⟩

end Runs

end Registry
end BabyLst
