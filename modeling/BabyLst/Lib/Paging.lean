/-
# Reading a growing collection page by page

A collection has entries in ascending order of their keys, and is shown in pages:
from a key on, so many at most (`page`).  A reader asks for a page, and while it
is full, for the next one from after its last key (`Walk`).  Between two pages the
collection may change: the entries it has stay, in what `R` keeps of them, and new
ones come with greater keys (`Grows`).  The pages together are then what the
collection shows at the end of the walk, up to `R` (`Walk.complete`): no entry is
missed and none is listed twice.
-/

import Mathlib.Data.List.Basic
import Mathlib.Data.List.Forall2
import Mathlib.Order.Basic

namespace BabyLst
namespace Lib

variable {α σ : Type*} {key : α → ℕ}

/-- The entries from a key on. -/
def entriesFrom (key : α → ℕ) (start : ℕ) (l : List α) : List α :=
  l.filter fun a => start ≤ key a

/-- The entries from a key on, `limit` of them at most. -/
def page (key : α → ℕ) (start limit : ℕ) (l : List α) : List α :=
  (entriesFrom key start l).take limit

/-- In ascending order of the keys. -/
def Ascending (key : α → ℕ) (l : List α) : Prop := l.Pairwise fun a b => key a < key b

theorem Ascending.entriesFrom {l : List α} (h : Ascending key l) (start : ℕ) :
    Ascending key (entriesFrom key start l) := List.Pairwise.filter _ h

/-- In an ascending list, what comes from a later key on is a part cut off. -/
theorem Ascending.split {l : List α} (h : Ascending key l) {start cut : ℕ} (hle : start ≤ cut) :
    Lib.entriesFrom key start l =
      (Lib.entriesFrom key start l).filter (fun a => key a < cut) ++ Lib.entriesFrom key cut l := by
  unfold Lib.entriesFrom
  induction l with
  | nil => rfl
  | cons a l ih =>
    obtain ⟨hhead, htail⟩ := List.pairwise_cons.1 h
    by_cases hcut : cut ≤ key a
    · -- all of the list is past the cut
      have hall : ∀ b ∈ a :: l, cut ≤ key b := by
        intro b hb
        rcases List.mem_cons.1 hb with rfl | hb
        · exact hcut
        · exact Nat.le_trans hcut (Nat.le_of_lt (hhead b hb))
      have hkept : ∀ m ≤ cut, (a :: l).filter (fun b => decide (m ≤ key b)) = a :: l :=
        fun m hm => List.filter_eq_self.2 fun b hb =>
          decide_eq_true (Nat.le_trans hm (hall b hb))
      have hnone : (a :: l).filter (fun b => decide (key b < cut)) = [] :=
        List.filter_eq_nil_iff.2 fun b hb => by simpa using hall b hb
      rw [hkept start hle, hkept cut (Nat.le_refl cut), hnone, List.nil_append]
    · rw [List.filter_cons_of_neg (l := l) (p := fun a => decide (cut ≤ key a))
        (by simpa using hcut)]
      by_cases hstart : start ≤ key a
      · rw [List.filter_cons_of_pos (by simpa using hstart),
          List.filter_cons_of_pos (by simpa using hcut), List.cons_append, ← ih htail]
      · rw [List.filter_cons_of_neg (by simpa using hstart), ← ih htail]

/-- A page that is full is the entries up to its last key. -/
theorem Ascending.full_page {l : List α} (h : Ascending key l) {start limit : ℕ} {a : α}
    (last : (page key start limit l).getLast? = some a) :
    page key start limit l =
      (Lib.entriesFrom key start l).filter fun b => key b < key a + 1 := by
  have hfrom := h.entriesFrom start
  unfold page at last ⊢
  obtain ⟨hinit, heq⟩ := List.getLast?_eq_some_iff.1 last
  have hsplit := List.take_append_drop limit (Lib.entriesFrom key start l)
  rw [← hsplit] at hfrom
  obtain ⟨hfirst, -, hcross⟩ := List.pairwise_append.1 hfrom
  have hle : ∀ b ∈ (Lib.entriesFrom key start l).take limit, key b < key a + 1 := by
    intro b hb
    rw [heq] at hb hfirst
    rcases List.mem_append.1 hb with hb | hb
    · have := (List.pairwise_append.1 hfirst).2.2 b hb a (List.mem_singleton_self a)
      omega
    · rw [List.mem_singleton.1 hb]
      exact Nat.lt_succ_self _
  have hgt : ∀ b ∈ (Lib.entriesFrom key start l).drop limit, ¬key b < key a + 1 := by
    intro b hb
    have := hcross a (List.mem_of_getLast? last) b hb
    omega
  conv_rhs => rw [← hsplit]
  rw [List.filter_append, List.filter_eq_self.2 (by simpa using hle),
    List.filter_eq_nil_iff.2 (by simpa using hgt), List.append_nil]

/-! ### Entries passed over -/

/-- Taking so many and then passing over those that show nothing is passing over
them first, when they come after all the others. -/
theorem filterMap_take {β : Type*} {f : α → Option β} {l : List α} (ascending : Ascending key l)
    {cut : ℕ} (passed : ∀ a ∈ l, f a = none ↔ cut ≤ key a) (n : ℕ) :
    (l.take n).filterMap f = (l.filterMap f).take n := by
  induction l generalizing n with
  | nil => simp
  | cons a l ih =>
    obtain ⟨hhead, htail⟩ := List.pairwise_cons.1 ascending
    cases n with
    | zero => rfl
    | succ n =>
      rw [List.take_succ_cons]
      cases hf : f a with
      | some b =>
        rw [List.filterMap_cons_some hf, List.filterMap_cons_some hf, List.take_succ_cons,
          ih htail fun b hb => passed b (List.mem_cons_of_mem _ hb)]
      | none =>
        -- and so is all that comes after it
        have hcut := (passed a List.mem_cons_self).1 hf
        have hnone : ∀ b ∈ l, f b = none := fun b hb =>
          (passed b (List.mem_cons_of_mem _ hb)).2
            (Nat.le_trans hcut (Nat.le_of_lt (hhead b hb)))
        rw [List.filterMap_cons_none hf, List.filterMap_cons_none hf,
          List.filterMap_eq_nil_iff.2 hnone,
          List.filterMap_eq_nil_iff.2 fun b hb => hnone b (List.mem_of_mem_take hb)]
        rfl

/-- So a page of what is shown is what is shown of a page. -/
theorem page_filterMap {β : Type*} {f : α → Option β} {key' : β → ℕ} {l : List α}
    (keys : ∀ a b, f a = some b → key' b = key a) (ascending : Ascending key l) {cut : ℕ}
    (passed : ∀ a ∈ l, f a = none ↔ cut ≤ key a) (start limit : ℕ) :
    (page key start limit l).filterMap f = page key' start limit (l.filterMap f) := by
  unfold page
  rw [filterMap_take (ascending.entriesFrom start)
    fun a ha => passed a (List.mem_of_mem_filter ha)]
  congr 1
  unfold entriesFrom
  rw [List.filterMap_filter, List.filter_filterMap]
  refine List.filterMap_congr fun a _ => ?_
  cases hf : f a with
  | none => simp
  | some b => simp [Option.filter, keys a b hf]

/-- What is shown is in ascending order. -/
theorem Ascending.filterMap {β : Type*} {f : α → Option β} {key' : β → ℕ} {l : List α}
    (h : Ascending key l) (keys : ∀ a b, f a = some b → key' b = key a) :
    Ascending key' (l.filterMap f) := by
  refine List.Pairwise.filterMap f (fun a a' hlt b hb b' hb' => ?_) h
  rw [keys a b hb, keys a' b' hb']
  exact hlt

/-- Ascending lists with the same keys are the same but for what else they hold. -/
theorem Ascending.keys_eq {β : Type*} {key' : β → ℕ} {l : List α} {l' : List β}
    (h : Ascending key l) (h' : Ascending key' l')
    (same : ∀ k, k ∈ l.map key ↔ k ∈ l'.map key') : l.map key = l'.map key' := by
  have hsorted : (l.map key).Pairwise (· < ·) := List.pairwise_map.2 h
  have hsorted' : (l'.map key').Pairwise (· < ·) := List.pairwise_map.2 h'
  have hperm : (l.map key).Perm (l'.map key') :=
    (List.perm_ext_iff_of_nodup (hsorted.imp Nat.ne_of_lt) (hsorted'.imp Nat.ne_of_lt)).2 same
  exact hperm.eq_of_pairwise (fun _ _ _ _ hlt hgt => absurd hlt (Nat.lt_asymm hgt)) hsorted hsorted'

/-! ### Collections that grow -/

/-- The entries stay, in what `R` keeps of them, and others come with greater keys. -/
structure Grows (key : α → ℕ) (R : α → α → Prop) (l l' : List α) : Prop where
  keys : l.map key <+: l'.map key
  kept : ∀ a ∈ l, ∃ b ∈ l', R a b

variable {R : α → α → Prop}

theorem Grows.refl (refl : ∀ a, R a a) (l : List α) : Grows key R l l :=
  ⟨List.prefix_rfl, fun a ha => ⟨a, ha, refl a⟩⟩

theorem Grows.trans (trans : ∀ a b c, R a b → R b c → R a c) {l l' l'' : List α}
    (h : Grows key R l l') (h' : Grows key R l' l'') : Grows key R l l'' := by
  refine ⟨h.keys.trans h'.keys, fun a ha => ?_⟩
  obtain ⟨b, hb, hab⟩ := h.kept a ha
  obtain ⟨c, hc, hbc⟩ := h'.kept b hb
  exact ⟨c, hc, trans a b c hab hbc⟩

/-- A collection that keeps its keys, all below a cut, and gets none there, has grown. -/
theorem Grows.of_cut {l l' : List α} (ascending : Ascending key l) (ascending' : Ascending key l')
    {cut : ℕ} (below : ∀ a ∈ l, key a < cut)
    (same : ∀ k < cut, k ∈ l.map key ↔ k ∈ l'.map key) (kept : ∀ a ∈ l, ∃ b ∈ l', R a b) :
    Grows key R l l' := by
  refine ⟨?_, kept⟩
  have hall : entriesFrom key 0 l' = l' :=
    List.filter_eq_self.2 fun a _ => decide_eq_true (Nat.zero_le (key a))
  have hsplit := ascending'.split (Nat.zero_le cut)
  rw [hall] at hsplit
  have hkeys : l.map key = (l'.filter fun a => key a < cut).map key := by
    refine ascending.keys_eq (List.Pairwise.filter _ ascending') fun k => ?_
    have hfilter : k ∈ (l'.filter fun a => key a < cut).map key ↔ k ∈ l'.map key ∧ k < cut := by
      simp only [List.mem_map, List.mem_filter, decide_eq_true_eq]
      grind
    rw [hfilter]
    constructor
    · intro hk
      obtain ⟨a, ha, rfl⟩ := List.mem_map.1 hk
      exact ⟨(same _ (below a ha)).1 hk, below a ha⟩
    · rintro ⟨hk, hlt⟩
      exact (same k hlt).2 hk
  rw [hsplit, List.map_append, hkeys]
  exact List.prefix_append ..

/-- The keys between two are those of the collection's keys between the two. -/
theorem map_between (start cut : ℕ) (l : List α) :
    ((entriesFrom key start l).filter fun b => key b < cut).map key =
      ((l.map key).filter fun k => start ≤ k).filter fun k => k < cut := by
  rw [List.filter_map, List.filter_map]
  rfl

/-- The keys up to one that a collection has are the same after it has grown. -/
theorem Grows.keys_before {l l' : List α} (h : Grows key R l l') (ascending : Ascending key l')
    {a : α} (ha : a ∈ l) (start : ℕ) :
    ((entriesFrom key start l).filter fun b => key b < key a + 1).map key =
      ((entriesFrom key start l').filter fun b => key b < key a + 1).map key := by
  obtain ⟨new, hnew⟩ := h.keys
  have hsorted : (l'.map key).Pairwise (· < ·) := List.pairwise_map.2 ascending
  rw [map_between, map_between]
  rw [← hnew] at hsorted ⊢
  have hgt := (List.pairwise_append.1 hsorted).2.2 (key a) (List.mem_map_of_mem ha)
  have hnone : (new.filter fun k => start ≤ k).filter (fun k => k < key a + 1) = [] := by
    rw [List.filter_eq_nil_iff]
    intro k hk
    have := hgt k (List.mem_of_mem_filter hk)
    simp only [decide_eq_true_eq]
    omega
  rw [List.filter_append, List.filter_append, hnone, List.append_nil]

/-! ### A walk -/

/-- **A reader walks through the pages** of what a state answers: a short page is
the last one, and after a full one the next is asked for in a later state, from
after the last key. -/
inductive Walk (answers : σ → ℕ → List α → Prop) (key : α → ℕ) (limit : ℕ)
    (later : σ → σ → Prop) : σ → ℕ → List α → σ → Prop
  | last {s : σ} {start : ℕ} {l : List α} (answer : answers s start l) (short : l.length < limit) :
      Walk answers key limit later s start l s
  | more {s s' t : σ} {start : ℕ} {l rest : List α} {a : α} (answer : answers s start l)
      (full : l.length = limit) (last : l.getLast? = some a) (passes : later s s')
      (walk : Walk answers key limit later s' (key a + 1) rest t) :
      Walk answers key limit later s start (l ++ rest) t

variable {answers : σ → ℕ → List α → Prop} {limit : ℕ} {later : σ → σ → Prop}

/-- **A walk is complete**: it lists the keys that the collection has at its end,
from its start on, each once and in order; of what it lists, the collection has
what `R` keeps. -/
theorem Walk.complete {P : σ → Prop} {shows : σ → List α}
    (paged : ∀ s start l, P s → answers s start l → l = page key start limit (shows s))
    (ascending : ∀ s, P s → Ascending key (shows s))
    (grows : ∀ s s', P s → later s s' → P s' ∧ Grows key R (shows s) (shows s'))
    (refl : ∀ a, R a a) (trans : ∀ a b c, R a b → R b c → R a c) {s t : σ} {start : ℕ} {l : List α}
    (walk : Walk answers key limit later s start l t) (hs : P s) :
    Grows key R (shows s) (shows t) ∧ P t ∧
      l.map key = (entriesFrom key start (shows t)).map key ∧ ∀ a ∈ l, ∃ b ∈ shows t, R a b := by
  induction walk with
  | @last s start l answer short =>
    have hl := paged s start l hs answer
    have hall : l = entriesFrom key start (shows s) := by
      rw [hl, page, List.length_take] at short
      rw [hl, page, List.take_of_length_le (by omega)]
    refine ⟨.refl refl _, hs, by rw [hall], fun a ha => ⟨a, ?_, refl a⟩⟩
    rw [hall] at ha
    exact List.mem_of_mem_filter ha
  | @more s s' t start l rest a answer full last passes walk ih =>
    obtain ⟨hs', hstep⟩ := grows s s' hs passes
    obtain ⟨hrest, ht, hkeys, hkept⟩ := ih hs'
    have hgrows := hstep.trans trans hrest
    have hl := paged s start l hs answer
    have hmem : ∀ b ∈ l, b ∈ shows s := by
      intro b hb
      rw [hl] at hb
      exact List.mem_of_mem_filter (List.mem_of_mem_take hb)
    have ha : start ≤ key a := by
      have hin : a ∈ l := List.mem_of_getLast? last
      rw [hl] at hin
      simpa using List.of_mem_filter (List.mem_of_mem_take hin)
    refine ⟨hgrows, ht, ?_, fun b hb => ?_⟩
    · -- the page has the keys before the cut, the rest of the walk those after it
      rw [(ascending t ht).split (show start ≤ key a + 1 by omega), List.map_append,
        List.map_append, hkeys]
      congr 1
      have hbefore := hgrows.keys_before (ascending t ht) (hmem a (List.mem_of_getLast? last)) start
      rw [← hbefore, hl]
      rw [hl] at last
      rw [(ascending s hs).full_page last]
    · rcases List.mem_append.1 hb with hb | hb
      · exact hgrows.kept b (hmem b hb)
      · exact hkept b hb

end Lib
end BabyLst
