import Mathlib.Data.List.Sort
import Mathlib.Data.List.Perm.Basic

/-!
# Sorting and selecting by a comparator

`StdAlgorithm` collects what the C++ standard promises of `std::sort`,
`std::partial_sort` and `std::nth_element` for a comparator that is a strict
weak order.  The functions themselves stay unknown: for equivalent elements,
and for the part of the range the standard leaves unspecified, implementations
differ.

On a list without duplicates that the comparator orders totally (`Decides`) the
freedom is gone.  The element an algorithm puts at index `n` is the one with
exactly `n` better elements, whichever algorithm it is and whatever order the
list arrived in: `getElem?_nthElement`, `getElem?_sort` and
`getElem?_partialSort`.  So there is one sorted arrangement, `ranking`, of which
all three find a part.
-/

variable {α : Type*}

/-- The comparators the standard algorithms accept. -/
structure StrictWeakOrder (comp : α → α → Bool) : Prop where
  irrefl : ∀ a, comp a a = false
  trans : ∀ a b c, comp a b = true → comp b c = true → comp a c = true
  incomp_trans : ∀ a b c, comp b a = false → comp c b = false → comp c a = false

/-- The comparator orders any two different elements of the list. -/
structure Decides (comp : α → α → Bool) (l : List α) : Prop where
  weak : StrictWeakOrder comp
  total : ∀ a ∈ l, ∀ b ∈ l, a ≠ b → comp a b = true ∨ comp b a = true

/-- Implementations of the sorting algorithms with their guarantees. -/
structure StdAlgorithm (α : Type*) where
  sort : (α → α → Bool) → List α → List α
  partialSort : (α → α → Bool) → ℕ → List α → List α
  nthElement : (α → α → Bool) → ℕ → List α → List α
  sort_perm : ∀ {comp}, StrictWeakOrder comp → ∀ l, (sort comp l).Perm l
  sort_sorted : ∀ {comp}, StrictWeakOrder comp → ∀ l,
    (sort comp l).Pairwise fun a b => comp b a = false
  partialSort_perm : ∀ {comp}, StrictWeakOrder comp → ∀ middle l,
    (partialSort comp middle l).Perm l
  partialSort_sorted : ∀ {comp}, StrictWeakOrder comp → ∀ middle l,
    ((partialSort comp middle l).take middle).Pairwise fun a b => comp b a = false
  partialSort_le : ∀ {comp}, StrictWeakOrder comp → ∀ middle l,
    ∀ a ∈ (partialSort comp middle l).take middle,
      ∀ b ∈ (partialSort comp middle l).drop middle, comp b a = false
  nthElement_perm : ∀ {comp}, StrictWeakOrder comp → ∀ n l, (nthElement comp n l).Perm l
  nthElement_before : ∀ {comp}, StrictWeakOrder comp → ∀ n l,
    ∀ a ∈ (nthElement comp n l).take n, ∀ b ∈ (nthElement comp n l).drop n, comp b a = false
  nthElement_after : ∀ {comp}, StrictWeakOrder comp → ∀ n l x,
    (nthElement comp n l)[n]? = some x → ∀ b ∈ (nthElement comp n l).drop n, comp b x = false

namespace StdAlgorithm

/-! ## Better elements -/

/-- The number of elements of `l` that the comparator puts before `x`. -/
def better (comp : α → α → Bool) (l : List α) (x : α) : ℕ := l.countP fun a => comp a x

theorem better_perm {comp : α → α → Bool} {l l' : List α} (h : l.Perm l') (x : α) :
    better comp l x = better comp l' x :=
  h.countP_eq _

/-- A better element has fewer better elements. -/
theorem better_lt {comp : α → α → Bool} (hcomp : StrictWeakOrder comp) {l : List α} {x y : α}
    (hx : x ∈ l) (hxy : comp x y = true) : better comp l x < better comp l y := by
  induction l with
  | nil => cases hx
  | cons a rest ih =>
      have himp : ∀ b, comp b x = true → comp b y = true := fun b hb => hcomp.trans b x y hb hxy
      have hrest : better comp rest x ≤ better comp rest y :=
        List.countP_mono_left fun b _ => himp b
      simp only [better, List.countP_cons] at ih hrest ⊢
      -- `x` counts among the elements better than `y`, and not among its own
      rcases List.mem_cons.mp hx with rfl | hmem
      · simp only [hcomp.irrefl, hxy]
        simp
        omega
      · have hlt := ih hmem
        cases hax : comp a x with
        | false => simp; omega
        | true => simp [himp a hax]; omega

theorem better_le {comp : α → α → Bool} (hcomp : StrictWeakOrder comp) {l : List α} {x y : α}
    (hxy : comp x y = false) : better comp l y ≤ better comp l x := by
  refine List.countP_mono_left fun b _ hb => ?_
  by_contra hbx
  rw [hcomp.incomp_trans y x b hxy (by simpa using hbx)] at hb
  cases hb

theorem better_injective {comp : α → α → Bool} {l : List α} (h : Decides comp l) {x y : α}
    (hx : x ∈ l) (hy : y ∈ l) (heq : better comp l x = better comp l y) : x = y := by
  by_contra hne
  rcases h.total x hx y hy hne with hxy | hyx
  · exact absurd heq (better_lt h.weak hx hxy).ne
  · exact absurd heq (better_lt h.weak hy hyx).ne'

theorem better_lt_length {comp : α → α → Bool} (hcomp : StrictWeakOrder comp) {l : List α}
    {x : α} (hx : x ∈ l) : better comp l x < l.length := by
  refine lt_of_le_of_ne List.countP_le_length fun heq => ?_
  have hself := List.countP_eq_length.mp heq x hx
  rw [hcomp.irrefl] at hself
  cases hself

/-! ## What stands at an index -/

/-- Index `n` of `r` splits it into elements that are not worse and elements
that are not better than the one there. -/
structure Selects (comp : α → α → Bool) (r : List α) (n : ℕ) : Prop where
  before : ∀ x, r[n]? = some x → ∀ a ∈ r.take n, comp x a = false
  after : ∀ x, r[n]? = some x → ∀ b ∈ r.drop (n + 1), comp b x = false

theorem Selects.better_eq {comp : α → α → Bool} {r : List α} {n : ℕ} (hsel : Selects comp r n)
    (h : Decides comp r) (hnodup : r.Nodup) {x : α} (hx : r[n]? = some x) :
    better comp r x = n := by
  obtain ⟨hn, rfl⟩ := List.getElem?_eq_some_iff.mp hx
  have hsplit : r = r.take n ++ r[n] :: r.drop (n + 1) := by
    rw [← List.drop_eq_getElem_cons hn, List.take_append_drop]
  -- an element that is not worse and not the same is better, as the comparator decides
  have hbefore : (r.take n).countP (fun a => comp a r[n]) = (r.take n).length := by
    rw [List.countP_eq_length]
    intro a ha
    have hne : a ≠ r[n] := by
      rintro rfl
      rw [hsplit, List.nodup_append] at hnodup
      exact hnodup.2.2 _ ha _ (List.mem_cons_self ..) rfl
    rcases h.total a (List.mem_of_mem_take ha) r[n] (List.getElem_mem hn) hne with hlt | hgt
    · exact hlt
    · rw [hsel.before _ hx a ha] at hgt
      cases hgt
  have hafter : (r.drop (n + 1)).countP (fun a => comp a r[n]) = 0 := by
    rw [List.countP_eq_zero]
    intro b hb
    simp [hsel.after _ hx b hb]
  calc better comp r r[n]
      = (r.take n ++ r[n] :: r.drop (n + 1)).countP (fun a => comp a r[n]) := by
        rw [better, ← hsplit]
    _ = n := by
        rw [List.countP_append, List.countP_cons, hbefore, hafter, h.weak.irrefl]
        simp
        omega

/-- The element at a selected index is the one with that many better elements. -/
theorem Selects.getElem?_eq_some_iff {comp : α → α → Bool} {r l : List α} {n : ℕ}
    (hsel : Selects comp r n) (hperm : r.Perm l) (h : Decides comp l) (hnodup : l.Nodup) {x : α}
    (hn : n < l.length) : r[n]? = some x ↔ x ∈ l ∧ better comp l x = n := by
  have hr : Decides comp r := ⟨h.weak, fun a ha b hb =>
    h.total a (hperm.mem_iff.mp ha) b (hperm.mem_iff.mp hb)⟩
  have hrn : n < r.length := by rwa [hperm.length_eq]
  have hthere := hsel.better_eq hr (hperm.nodup_iff.mpr hnodup) (List.getElem?_eq_getElem hrn)
  rw [better_perm hperm] at hthere
  constructor
  · intro hx
    obtain ⟨_, rfl⟩ := List.getElem?_eq_some_iff.mp hx
    exact ⟨hperm.mem_iff.mp (List.getElem_mem hrn), hthere⟩
  · rintro ⟨hmem, hcount⟩
    have hxr : x = r[n] := better_injective h hmem
      (hperm.mem_iff.mp (List.getElem_mem hrn)) (hcount.trans hthere.symm)
    rw [hxr, List.getElem?_eq_getElem hrn]

theorem selects_of_sorted {comp : α → α → Bool} {r : List α}
    (hsorted : r.Pairwise fun a b => comp b a = false) (n : ℕ) : Selects comp r n := by
  constructor
  · intro x hx a ha
    obtain ⟨hn, rfl⟩ := List.getElem?_eq_some_iff.mp hx
    obtain ⟨i, hi, rfl⟩ := List.mem_take_iff_getElem.mp ha
    exact List.pairwise_iff_getElem.mp hsorted i n (by omega) hn (by omega)
  · intro x hx b hb
    obtain ⟨hn, rfl⟩ := List.getElem?_eq_some_iff.mp hx
    obtain ⟨i, hi, rfl⟩ := List.mem_drop_iff_getElem.mp hb
    exact List.pairwise_iff_getElem.mp hsorted n (n + 1 + i) hn (by omega) (by omega)

variable (alg : StdAlgorithm α) {comp : α → α → Bool} {l : List α} {n : ℕ} {x : α}

theorem selects_nthElement (hcomp : StrictWeakOrder comp) (l : List α) (n : ℕ) :
    Selects comp (alg.nthElement comp n l) n := by
  constructor
  · intro x hx a ha
    refine alg.nthElement_before hcomp n l a ha x ?_
    obtain ⟨hn, rfl⟩ := List.getElem?_eq_some_iff.mp hx
    exact List.mem_drop_iff_getElem.mpr ⟨0, by omega, by simp⟩
  · intro x hx b hb
    exact alg.nthElement_after hcomp n l x hx b (List.drop_subset_drop_left _ (Nat.le_succ n) hb)

theorem selects_partialSort (hcomp : StrictWeakOrder comp) (l : List α) {middle n : ℕ}
    (hn : n < middle) : Selects comp (alg.partialSort comp middle l) n := by
  set r := alg.partialSort comp middle l with hr
  have hsorted := alg.partialSort_sorted hcomp middle l
  have hle := alg.partialSort_le hcomp middle l
  rw [← hr] at hsorted hle
  have hfront := selects_of_sorted hsorted n
  have hget : ∀ x, r[n]? = some x → (r.take middle)[n]? = some x := fun x hx => by
    rw [List.getElem?_take, if_pos hn, hx]
  constructor
  · intro x hx a ha
    refine hfront.before x (hget x hx) a ?_
    rwa [List.take_take, min_eq_left hn.le]
  · intro x hx b hb
    -- behind index `n` come the rest of the sorted front and what is left unsorted
    have hsplit : r.drop (n + 1) = (r.take middle).drop (n + 1) ++ r.drop middle := by
      conv_lhs => rw [← List.take_append_drop middle r]
      rw [List.drop_append]
      congr 1
      have hlen : n + 1 - (r.take middle).length = 0 ∨ r.drop middle = [] := by
        rcases Nat.lt_or_ge r.length middle with hshort | hlong
        · exact Or.inr (List.drop_eq_nil_of_le hshort.le)
        · left
          rw [List.length_take]
          omega
      rcases hlen with hlen | hnil
      · rw [hlen, List.drop_zero]
      · simp [hnil]
    rw [hsplit, List.mem_append] at hb
    rcases hb with hb | hb
    · exact hfront.after x (hget x hx) b hb
    · exact hle x (List.mem_of_getElem? (hget x hx)) b hb

theorem getElem?_nthElement (h : Decides comp l) (hnodup : l.Nodup) (hn : n < l.length) :
    (alg.nthElement comp n l)[n]? = some x ↔ x ∈ l ∧ better comp l x = n :=
  (alg.selects_nthElement h.weak l n).getElem?_eq_some_iff
    (alg.nthElement_perm h.weak n l) h hnodup hn

theorem getElem?_sort (h : Decides comp l) (hnodup : l.Nodup) (hn : n < l.length) :
    (alg.sort comp l)[n]? = some x ↔ x ∈ l ∧ better comp l x = n :=
  (selects_of_sorted (alg.sort_sorted h.weak l) n).getElem?_eq_some_iff
    (alg.sort_perm h.weak l) h hnodup hn

theorem getElem?_partialSort (h : Decides comp l) (hnodup : l.Nodup) {middle : ℕ}
    (hmiddle : n < middle) (hn : n < l.length) :
    (alg.partialSort comp middle l)[n]? = some x ↔ x ∈ l ∧ better comp l x = n :=
  (alg.selects_partialSort h.weak l hmiddle).getElem?_eq_some_iff
    (alg.partialSort_perm h.weak middle l) h hnodup hn

/-! ## An implementation -/

/-- All three algorithms by insertion sort. -/
def insertionSort : StdAlgorithm α :=
  let sort := fun (comp : α → α → Bool) (l : List α) =>
    l.insertionSort fun a b => comp b a = false
  have perm : ∀ (comp : α → α → Bool) (l : List α), (sort comp l).Perm l :=
    fun _ l => List.perm_insertionSort _ l
  have sorted : ∀ {comp : α → α → Bool}, StrictWeakOrder comp → ∀ l,
      (sort comp l).Pairwise fun a b => comp b a = false := fun {comp} hcomp l => by
    have htotal : Std.Total fun a b : α => comp b a = false := ⟨fun a b => by
      by_contra hboth
      simp only [not_or, Bool.not_eq_false] at hboth
      have hself := hcomp.trans b a b hboth.1 hboth.2
      rw [hcomp.irrefl] at hself
      cases hself⟩
    have htrans : IsTrans α fun a b => comp b a = false := ⟨hcomp.incomp_trans⟩
    exact List.pairwise_insertionSort _ l
  have split : ∀ {comp : α → α → Bool}, StrictWeakOrder comp → ∀ n l,
      ∀ a ∈ (sort comp l).take n, ∀ b ∈ (sort comp l).drop n, comp b a = false :=
    fun {comp} hcomp n l a ha b hb => by
      have h := sorted hcomp l
      rw [← List.take_append_drop n (sort comp l), List.pairwise_append] at h
      exact h.2.2 a ha b hb
  { sort := sort
    partialSort := fun comp _ l => sort comp l
    nthElement := fun comp _ l => sort comp l
    sort_perm := fun _ l => perm _ l
    sort_sorted := sorted
    partialSort_perm := fun _ _ l => perm _ l
    partialSort_sorted := fun hcomp _ l => (sorted hcomp l).sublist (List.take_sublist _ _)
    partialSort_le := split
    nthElement_perm := fun _ _ l => perm _ l
    nthElement_before := split
    nthElement_after := fun {comp} hcomp n l x hx b hb => by
      obtain ⟨hn, rfl⟩ := List.getElem?_eq_some_iff.mp hx
      rw [List.drop_eq_getElem_cons hn] at hb
      rcases List.mem_cons.mp hb with rfl | hb
      · exact hcomp.irrefl _
      · exact (selects_of_sorted (sorted hcomp l) n).after _ hx b hb }

/-! ## The one sorted arrangement -/

/-- The list in order, best element first. -/
def ranking (comp : α → α → Bool) (l : List α) : List α :=
  (insertionSort : StdAlgorithm α).sort comp l

section Ranking

variable {comp : α → α → Bool} {l : List α}

theorem length_ranking (hcomp : StrictWeakOrder comp) (l : List α) :
    (ranking comp l).length = l.length :=
  (insertionSort.sort_perm hcomp l).length_eq

theorem getElem?_ranking (h : Decides comp l) (hnodup : l.Nodup) {n : ℕ} (hn : n < l.length)
    {x : α} : (ranking comp l)[n]? = some x ↔ x ∈ l ∧ better comp l x = n :=
  insertionSort.getElem?_sort h hnodup hn

/-- Every way to sort the list arranges it so. -/
theorem sort_eq_ranking (alg : StdAlgorithm α) (h : Decides comp l) (hnodup : l.Nodup) :
    alg.sort comp l = ranking comp l := by
  have hlength : (alg.sort comp l).length = l.length := (alg.sort_perm h.weak l).length_eq
  apply List.ext_getElem?
  intro n
  rcases Nat.lt_or_ge n l.length with hn | hn
  · ext x
    rw [alg.getElem?_sort h hnodup hn, getElem?_ranking h hnodup hn]
  · rw [List.getElem?_eq_none (by omega),
      List.getElem?_eq_none (by rw [length_ranking h.weak]; exact hn)]

/-- A partial sort arranges its front so. -/
theorem take_partialSort (alg : StdAlgorithm α) (h : Decides comp l) (hnodup : l.Nodup)
    (middle : ℕ) : (alg.partialSort comp middle l).take middle = (ranking comp l).take middle := by
  have hlength : (alg.partialSort comp middle l).length = l.length :=
    (alg.partialSort_perm h.weak middle l).length_eq
  apply List.ext_getElem?
  intro n
  rw [List.getElem?_take, List.getElem?_take]
  split
  · next hmiddle =>
      rcases Nat.lt_or_ge n l.length with hn | hn
      · ext x
        rw [alg.getElem?_partialSort h hnodup hmiddle hn, getElem?_ranking h hnodup hn]
      · rw [List.getElem?_eq_none (by omega),
          List.getElem?_eq_none (by rw [length_ranking h.weak]; exact hn)]
  · rfl

end Ranking

end StdAlgorithm
