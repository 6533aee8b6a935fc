import Mathlib
import LsmStore.Proofs.Merge.Newest

/-!
# A merge yields the newest live versions

A merge over sources that each yield an ascending run, newest source first, yields the newest
version of every key in ascending key order, with deleted keys left out: the live entries of
`Run.newest`.

The merge's state is described by the runs its sources have left, heads included
(`Merge.Represents`): it holds the first entry of each nonempty run as a head, and each source
yields the rest of its run. Taking the least head, and then every older head of the same key,
takes the first entry of `Run.newest` and leaves a merge that represents runs whose newest
versions are the rest (`Represents.nextVersion_of_cons`). The fuel the merge gives each step is
its `bound`, which is more than the entries left (`Represents.total_lt_bound`).

## Main definitions

* `Stream.Yields` — what a source gives when pulled until it ends
* `Merge.Represents` — a merge in progress and the runs it has left

## Main results

* `Merge.start_of_yields` — a merge starts over sources that yield runs
* `Merge.Represents.toList` — what a started merge yields: the newest live versions
-/

namespace LsmStore

namespace Stream

variable {σ ε : Type}

/-- Pulling from `s` again and again gives the entries `es`, one per pull, and then the end;
the size of each state bounds what is left after it. -/
inductive Yields (S : Stream σ ε) : σ → List Entry → Prop where
  | nil {s s' : σ} (ends : S.pull s = (none, s')) : Yields S s []
  | cons {s s' : σ} {e : Entry} {es : List Entry} (gives : S.pull s = (some (.ok e), s'))
      (rest : Yields S s' es) (sized : es.length < S.size s) : Yields S s (e :: es)

theorem Yields.length_le {S : Stream σ ε} {s : σ} {es : List Entry} (h : Yields S s es) :
    es.length ≤ S.size s := by
  cases h with
  | nil => exact Nat.zero_le _
  | cons _ _ sized => exact sized

end Stream

namespace Merge

open Run

variable {σ ε : Type} {S : Stream σ ε}

/-- The heads of runs numbered from `i`: the first entry of each nonempty run, with its
number. -/
def headsFrom : Nat → List (List Entry) → List (Entry × Nat)
  | _, [] => []
  | i, [] :: runs => headsFrom (i + 1) runs
  | i, (e :: _) :: runs => (e, i) :: headsFrom (i + 1) runs

/-- The heads a merge over `runs` holds. -/
def headsOf (runs : List (List Entry)) : List (Entry × Nat) := headsFrom 0 runs

/-- What a source still owes past its head: nothing for an exhausted run, the rest of a run
whose head the merge holds. -/
def Pending (S : Stream σ ε) (s : σ) : List Entry → Prop
  | [] => True
  | _ :: rest => S.Yields s rest

/-- The number of entries of some runs. -/
def total (runs : List (List Entry)) : Nat := (runs.map List.length).sum

/-- The live entries of a run. -/
def live (es : List Entry) : List Entry := es.filter (!·.isTombstone)

/-- A merge in progress over `runs`, the entries its sources have left, heads included. -/
structure Represents (S : Stream σ ε) (m : Merge σ) (runs : List (List Entry)) : Prop where
  notFailed : m.failed = false
  length : m.sources.length = runs.length
  sorted : ∀ r ∈ runs, Ascending r
  heads : m.heads.Perm (headsOf runs)
  pending : ∀ (j : Nat) (s : σ) (r : List Entry), m.sources[j]? = some s → runs[j]? = some r →
    Pending S s r

/-! ## Heads -/

theorem mem_headsFrom {i j : Nat} {e : Entry} {runs : List (List Entry)} :
    (e, j) ∈ headsFrom i runs ↔ i ≤ j ∧ ∃ r, runs[j - i]? = some (e :: r) := by
  induction runs generalizing i with
  | nil => simp [headsFrom]
  | cons run runs ih =>
    cases run with
    | nil =>
      rw [headsFrom, ih]
      constructor
      · rintro ⟨le, r, hr⟩
        refine ⟨by omega, r, ?_⟩
        rwa [show j - i = (j - (i + 1)) + 1 by omega, List.getElem?_cons_succ]
      · rintro ⟨le, r, hr⟩
        have ne : j ≠ i := by
          rintro rfl
          simp at hr
        refine ⟨by omega, r, ?_⟩
        rwa [show j - i = (j - (i + 1)) + 1 by omega, List.getElem?_cons_succ] at hr
    | cons x xs =>
      rw [headsFrom, List.mem_cons, ih, Prod.mk.injEq]
      constructor
      · rintro (⟨rfl, rfl⟩ | ⟨le, r, hr⟩)
        · exact ⟨Nat.le_refl _, xs, by simp⟩
        · refine ⟨by omega, r, ?_⟩
          rwa [show j - i = (j - (i + 1)) + 1 by omega, List.getElem?_cons_succ]
      · rintro ⟨le, r, hr⟩
        by_cases same : j = i
        · subst same
          simp only [Nat.sub_self, List.getElem?_cons_zero, Option.some.injEq, List.cons.injEq] at hr
          exact .inl ⟨hr.1.symm, rfl⟩
        · refine .inr ⟨by omega, r, ?_⟩
          rwa [show j - i = (j - (i + 1)) + 1 by omega, List.getElem?_cons_succ] at hr

theorem mem_headsOf {j : Nat} {e : Entry} {runs : List (List Entry)} :
    (e, j) ∈ headsOf runs ↔ ∃ r, runs[j]? = some (e :: r) := by
  simp [headsOf, mem_headsFrom]

theorem headsOf_eq_nil {runs : List (List Entry)} : headsOf runs = [] ↔ ∀ r ∈ runs, r = [] := by
  constructor
  · intro none r hr
    obtain ⟨j, hj, rfl⟩ := List.getElem_of_mem hr
    cases hrun : runs[j] with
    | nil => rfl
    | cons e es =>
      have : (e, j) ∈ headsOf runs := mem_headsOf.2 ⟨es, by rw [List.getElem?_eq_getElem hj, hrun]⟩
      rw [none] at this
      cases this
  · intro empty
    apply List.eq_nil_iff_forall_not_mem.2
    rintro ⟨e, j⟩ mem
    obtain ⟨r, hr⟩ := mem_headsOf.1 mem
    exact List.cons_ne_nil _ _ (empty _ (List.mem_of_getElem? hr))

/-- Putting run `r` in place `j` changes the heads in that place alone. -/
theorem headsFrom_set_perm (i j : Nat) (runs : List (List Entry)) (r : List Entry)
    (hj : j < runs.length) :
    (headsFrom i (runs.set j r)).Perm
      ((headsFrom i runs).filter (·.2 != i + j) ++ (r.head?.map (·, i + j)).toList) := by
  induction runs generalizing i j with
  | nil => cases hj
  | cons run runs ih =>
    -- heads of later places carry numbers above `i`
    have later : (headsFrom (i + 1) runs).filter (·.2 != i) = headsFrom (i + 1) runs := by
      apply List.filter_eq_self.2
      rintro ⟨e, n⟩ mem
      have := (mem_headsFrom.1 mem).1
      simp only [bne_iff_ne, ne_eq]
      omega
    cases j with
    | zero =>
      cases run <;> cases r <;>
        simp [headsFrom, List.set_cons_zero, later, List.perm_cons_append_cons]
    | succ j =>
      have step := ih (i + 1) j (by simpa using hj)
      rw [show i + 1 + j = i + (j + 1) by omega] at step
      cases run with
      | nil => simpa [headsFrom, List.set_cons_succ] using step
      | cons x xs =>
        simp only [List.set_cons_succ, headsFrom, List.filter_cons]
        have keep : ((x, i).2 != i + (j + 1)) = true := by simp
        rw [if_pos keep]
        exact step.cons _

theorem headsOf_set_perm (runs : List (List Entry)) {j : Nat} (r : List Entry) (hj : j < runs.length) :
    (headsOf (runs.set j r)).Perm ((headsOf runs).filter (·.2 != j) ++ (r.head?.map (·, j)).toList) := by
  simpa [headsOf] using headsFrom_set_perm 0 j runs r hj

theorem headsFrom_append (i : Nat) (runs : List (List Entry)) (r : List Entry) :
    headsFrom i (runs ++ [r]) = headsFrom i runs ++ (r.head?.map (·, i + runs.length)).toList := by
  induction runs generalizing i with
  | nil => cases r <;> simp [headsFrom]
  | cons run runs ih =>
    cases run <;> simp [headsFrom, ih, Nat.add_assoc, Nat.add_comm 1]

/-- Every entry of a run is one of its own or the rest after the first. -/
theorem total_eq (runs : List (List Entry)) :
    total runs = (headsOf runs).length + (runs.map fun r => r.tail.length).sum := by
  suffices ∀ i, total runs = (headsFrom i runs).length + (runs.map fun r => r.tail.length).sum from
    this 0
  intro i
  induction runs generalizing i with
  | nil => rfl
  | cons run runs ih =>
    have := ih (i + 1)
    cases run <;> simp only [total, headsFrom, List.map_cons, List.sum_cons, List.length_cons,
      List.length_nil, List.tail_cons, List.tail_nil] at this ⊢ <;> omega

/-! ## The least head -/

theorem precedes_irrefl (a : Entry × Nat) : precedes a a = false := by
  simp [precedes, key_lt_irrefl]

theorem precedes_trans {a b c : Entry × Nat} (hab : precedes a b = true) (hbc : precedes b c = true) :
    precedes a c = true := by
  simp only [precedes, Bool.or_eq_true, decide_eq_true_eq, Bool.and_eq_true, beq_iff_eq] at *
  rcases hab with hab | ⟨hab, hab'⟩ <;> rcases hbc with hbc | ⟨hbc, hbc'⟩
  · exact .inl (key_lt_trans hab hbc)
  · exact .inl (hbc ▸ hab)
  · exact .inl (hab ▸ hbc)
  · exact .inr ⟨hab.trans hbc, Nat.lt_trans hab' hbc'⟩

/-- Not preceding is transitive too: heads are ordered by key and then by source, a total
order. -/
theorem precedes_eq_false_trans {a b c : Entry × Nat} (hab : precedes a b = false)
    (hbc : precedes b c = false) : precedes a c = false := by
  simp only [precedes, Bool.or_eq_false_iff, decide_eq_false_iff_not, Bool.and_eq_false_iff,
    beq_eq_false_iff_ne] at *
  obtain ⟨ab, ab'⟩ := hab
  obtain ⟨bc, bc'⟩ := hbc
  refine ⟨fun ac => ?_, ?_⟩
  · -- `c` would be above `a`, which is not above `b`, which is not above `c`
    rcases Std.lt_trichotomy a.1.key b.1.key with lt | eq | gt
    · exact ab lt
    · rcases Std.lt_trichotomy b.1.key c.1.key with lt' | eq' | gt'
      · exact bc lt'
      · exact key_lt_irrefl _ (eq ▸ eq' ▸ ac)
      · exact key_lt_asymm ac (eq ▸ gt')
    · rcases Std.lt_trichotomy b.1.key c.1.key with lt' | eq' | gt'
      · exact bc lt'
      · exact key_lt_asymm ac (eq' ▸ gt)
      · exact key_lt_asymm ac (key_lt_trans gt' gt)
  · by_cases same : a.1.key = c.1.key
    · refine .inr (Nat.not_lt.2 ?_)
      rcases Std.lt_trichotomy a.1.key b.1.key with lt | eq | gt
      · exact absurd lt ab
      · rcases ab' with ne | le
        · exact absurd eq ne
        · rcases bc' with ne' | le'
          · exact absurd (eq.symm.trans same) ne'
          · omega
      · rcases Std.lt_trichotomy b.1.key c.1.key with lt' | eq' | gt'
        · exact absurd lt' bc
        · exact absurd (same ▸ eq' ▸ gt) (key_lt_irrefl _)
        · exact absurd (same ▸ gt) (key_lt_asymm gt')
    · exact .inl same

/-- The fold behind `least?` ends on a head that nothing seen precedes. -/
theorem foldl_least (heads : List (Entry × Nat)) (acc : Option (Entry × Nat)) :
    ∀ x, heads.foldl (fun acc h => match acc with
        | none => some h
        | some a => if precedes h a then some h else some a) acc = some x →
      (acc = some x ∨ x ∈ heads) ∧ (∀ y ∈ heads, precedes y x = false) ∧
        ∀ a, acc = some a → precedes a x = false := by
  induction heads generalizing acc with
  | nil =>
    intro x hx
    simp only [List.foldl_nil] at hx
    subst hx
    exact ⟨.inl rfl, by simp, fun a ha => by cases ha; exact precedes_irrefl _⟩
  | cons h hs ih =>
    intro x hx
    rw [List.foldl_cons] at hx
    obtain ⟨came, beats, beatsAcc⟩ := ih _ x hx
    have inList : (some h = some x ∨ x ∈ hs) → x ∈ h :: hs := by
      rintro (came | came)
      · exact Option.some_inj.1 came ▸ List.mem_cons_self ..
      · exact List.mem_cons_of_mem h came
    cases acc with
    | none =>
      refine ⟨.inr (inList came), ?_, by simp⟩
      intro y hy
      rcases List.mem_cons.1 hy with rfl | hy
      · exact beatsAcc y rfl
      · exact beats y hy
    | some a =>
      by_cases first : precedes h a = true
      · -- `h` takes over from `a`
        simp only [first, if_true] at came beatsAcc
        have hx : precedes h x = false := beatsAcc h rfl
        refine ⟨.inr (inList came), ?_, ?_⟩
        · intro y hy
          rcases List.mem_cons.1 hy with rfl | hy
          · exact hx
          · exact beats y hy
        · intro a' ha'
          obtain rfl := Option.some_inj.1 ha'
          cases hprec : precedes a x
          · rfl
          · rw [precedes_trans first hprec] at hx
            cases hx
      · -- `a` stays
        rw [Bool.not_eq_true] at first
        simp only [first, Bool.false_eq_true, if_false] at came beatsAcc
        refine ⟨came.imp id (List.mem_cons_of_mem h), ?_, beatsAcc⟩
        intro y hy
        rcases List.mem_cons.1 hy with rfl | hy
        · rcases came with came | came
          · exact Option.some_inj.1 came ▸ first
          · exact precedes_eq_false_trans first (beatsAcc a rfl)
        · exact beats y hy

theorem least?_spec {heads : List (Entry × Nat)} {x : Entry × Nat} (h : least? heads = some x) :
    x ∈ heads ∧ ∀ y ∈ heads, precedes y x = false := by
  obtain ⟨came, beats, -⟩ := foldl_least heads none x h
  exact ⟨came.resolve_left (by simp), beats⟩

theorem least?_eq_none_iff {heads : List (Entry × Nat)} : least? heads = none ↔ heads = [] := by
  constructor
  · intro noHead
    cases heads with
    | nil => rfl
    | cons h hs =>
      -- the fold starts from `some h` and stays `some`
      have keeps : ∀ (l : List (Entry × Nat)) (a : Entry × Nat), l.foldl (fun acc h => match acc with
          | none => some h
          | some a => if precedes h a then some h else some a) (some a) ≠ none := by
        intro l
        induction l with
        | nil => simp
        | cons k ks ih =>
          intro a
          rw [List.foldl_cons]
          dsimp only
          by_cases hk : precedes k a = true
          · rw [if_pos hk]
            exact ih k
          · rw [if_neg hk]
            exact ih a
      exact absurd noHead (keeps hs h)
  · rintro rfl
    rfl

/-- A head that no other head precedes has the least key, and the least source among the
heads of that key. -/
theorem least_of_not_precedes {top e : Entry} {i j : Nat} (h : precedes (e, j) (top, i) = false) :
    top.key < e.key ∨ (top.key = e.key ∧ i ≤ j) := by
  simp only [precedes, Bool.or_eq_false_iff, decide_eq_false_iff_not, Bool.and_eq_false_iff,
    beq_eq_false_iff_ne] at h
  obtain ⟨notLt, tie⟩ := h
  rcases Std.lt_trichotomy top.key e.key with lt | eq | gt
  · exact .inl lt
  · exact .inr ⟨eq, by rcases tie with ne | nlt; exact absurd eq.symm ne; omega⟩
  · exact absurd gt notLt

/-! ## Runs after a step -/

theorem mem_of_mem_set {runs : List (List Entry)} {j : Nat} {x r : List Entry} (h : r ∈ runs.set j x) :
    r ∈ runs ∨ r = x := by
  rcases List.mem_or_eq_of_mem_set h with h | h
  · exact .inl h
  · exact .inr h

theorem total_set {runs : List (List Entry)} {j : Nat} {r x : List Entry} (hj : runs[j]? = some r)
    : total (runs.set j x) + r.length = total runs + x.length := by
  induction runs generalizing j with
  | nil => simp at hj
  | cons run runs ih =>
    cases j with
    | zero =>
      simp only [List.getElem?_cons_zero, Option.some.injEq] at hj
      subst hj
      simp only [total, List.set_cons_zero, List.map_cons, List.sum_cons]
      omega
    | succ j =>
      have := ih (by simpa using hj)
      simp only [total, List.set_cons_succ, List.map_cons, List.sum_cons] at this ⊢
      omega

theorem eq_nil_of_total_eq_zero {runs : List (List Entry)} (zero : total runs = 0) :
    ∀ r ∈ runs, r = [] := by
  induction runs with
  | nil => simp
  | cons run runs ih =>
    simp only [total, List.map_cons, List.sum_cons] at zero ih
    intro r hr
    rcases List.mem_cons.1 hr with rfl | hr
    · exact List.eq_nil_of_length_eq_zero (by omega)
    · exact ih (by omega) r hr

theorem total_map_dropKey_le (key : Bytes) (runs : List (List Entry)) :
    total (runs.map (dropKey key)) ≤ total runs := by
  induction runs with
  | nil => exact Nat.le_refl _
  | cons run runs ih =>
    have : (dropKey key run).length ≤ run.length := by
      cases run with
      | nil => exact Nat.le_refl _
      | cons e es =>
        by_cases at_key : e.key = key <;> simp [dropKey, at_key]
    simp only [total, List.map_map, List.map_cons, List.sum_cons] at ih ⊢
    exact Nat.add_le_add this ih

/-- Dropping the key of a run's head there, in place `j`, is what dropping the key everywhere
does there. -/
theorem map_dropKey_set {runs : List (List Entry)} {j : Nat} {top : Entry} {rest : List Entry}
    (hj : runs[j]? = some (top :: rest)) (sorted : Ascending (top :: rest)) :
    (runs.set j rest).map (dropKey top.key) = runs.map (dropKey top.key) := by
  have restKept : dropKey top.key rest = rest := by
    cases rest with
    | nil => rfl
    | cons e es =>
      rw [dropKey, if_neg fun same => key_ne_of_lt (sorted.head_lt e (List.mem_cons_self ..)) same.symm]
  apply List.ext_getElem?
  intro k
  simp only [List.getElem?_map]
  by_cases at_j : j = k
  · subst at_j
    have hlen : j < runs.length := (List.getElem?_eq_some_iff.1 hj).1
    rw [List.getElem?_set_self hlen, hj]
    show some (dropKey top.key rest) = some (dropKey top.key (top :: rest))
    rw [restKept, dropKey, if_pos rfl]
  · rw [List.getElem?_set_ne at_j]

/-! ## Pulling one source -/

theorem advance_of_yields {m : Merge σ} {i : Nat} {s : σ} {rest : List Entry}
    (hs : m.sources[i]? = some s) (yields : S.Yields s rest) :
    ∃ s', advance S m i =
      ({ m with sources := m.sources.set i s', heads := m.heads ++ (rest.head?.map (·, i)).toList },
        none) ∧ Pending S s' rest := by
  cases yields with
  | @nil _ s' ends =>
    refine ⟨s', ?_, trivial⟩
    simp [advance, hs, ends]
  | @cons _ s' e es gives tail _ =>
    refine ⟨s', ?_, tail⟩
    simp [advance, hs, gives]

variable {m : Merge σ} {runs : List (List Entry)}

/-- Taking the head of run `i` and pulling its source again leaves the rest of the run. -/
theorem Represents.advance (rep : Represents S m runs) {i : Nat} {top : Entry} {rest : List Entry}
    (hi : runs[i]? = some (top :: rest)) :
    ∃ m', advance S (m.dropHead i) i = (m', none) ∧ Represents S m' (runs.set i rest) := by
  have hlen : i < runs.length := (List.getElem?_eq_some_iff.1 hi).1
  obtain ⟨s, hs⟩ : ∃ s, m.sources[i]? = some s :=
    ⟨_, List.getElem?_eq_getElem (rep.length ▸ hlen)⟩
  have yields : S.Yields s rest := rep.pending i s _ hs hi
  obtain ⟨s', eq, owed⟩ := advance_of_yields (m := m.dropHead i) hs yields
  refine ⟨_, eq, ⟨rep.notFailed, by simp [dropHead, rep.length], ?_, ?_, ?_⟩⟩
  · intro r hr
    rcases mem_of_mem_set hr with hr | rfl
    · exact rep.sorted r hr
    · exact (rep.sorted _ (List.mem_of_getElem? hi)).tail
  · simp only [dropHead]
    exact ((rep.heads.filter _).append_right _).trans (headsOf_set_perm runs rest hlen).symm
  · intro j t r ht hr
    by_cases at_i : i = j
    · subst at_i
      rw [List.getElem?_set_self (rep.length ▸ hlen), Option.some.injEq] at ht
      rw [List.getElem?_set_self hlen, Option.some.injEq] at hr
      subst ht hr
      exact owed
    · rw [List.getElem?_set_ne at_i] at ht hr
      exact rep.pending j t r ht hr

/-- Heads of the key just taken are consumed, source by source, while no entry left is below
it; what remains is every run with that key taken off its front. -/
theorem Represents.dropShadowed (rep : Represents S m runs) {key : Bytes}
    (above : ∀ r ∈ runs, ∀ e ∈ r, ¬ e.key < key) (fuel : Nat) (enough : total runs ≤ fuel) :
    ∃ m', dropShadowed S key fuel m = (m', none) ∧ Represents S m' (runs.map (dropKey key)) := by
  induction fuel generalizing m runs with
  | zero =>
    -- no entries are left, so there is nothing to drop
    have empty : ∀ r ∈ runs, r = [] := eq_nil_of_total_eq_zero (by omega)
    have same : runs.map (dropKey key) = runs := by
      conv => rhs; rw [← List.map_id runs]
      apply List.map_congr_left
      intro r hr
      rw [empty r hr]
      rfl
    exact ⟨m, rfl, by rw [same]; exact rep⟩
  | succ fuel ih =>
    rw [Merge.dropShadowed]
    cases hleast : least? m.heads with
    | none =>
      have empty : ∀ r ∈ runs, r = [] :=
        headsOf_eq_nil.1 (List.Perm.eq_nil (rep.heads.symm.trans (by rw [least?_eq_none_iff.1 hleast])))
      have same : runs.map (dropKey key) = runs := by
        conv => rhs; rw [← List.map_id runs]
        apply List.map_congr_left
        intro r hr
        rw [empty r hr]
        rfl
      exact ⟨m, rfl, by rw [same]; exact rep⟩
    | some h =>
      obtain ⟨top, i⟩ := h
      obtain ⟨mem, beats⟩ := least?_spec hleast
      obtain ⟨rest, hi⟩ := mem_headsOf.1 (rep.heads.subset mem)
      dsimp only
      by_cases at_key : top.key = key
      · -- the least head holds the key: consume it and go on
        rw [if_pos (beq_iff_eq.2 at_key)]
        obtain ⟨m', adv, rep'⟩ := rep.advance hi
        rw [adv]
        dsimp only
        have sortedRun := rep.sorted _ (List.mem_of_getElem? hi)
        have above' : ∀ r ∈ runs.set i rest, ∀ e ∈ r, ¬ e.key < key := by
          intro r hr e he
          rcases mem_of_mem_set hr with hr | rfl
          · exact above r hr e he
          · exact above _ (List.mem_of_getElem? hi) e (List.mem_cons_of_mem top he)
        have enough' : total (runs.set i rest) ≤ fuel := by
          have := total_set (x := rest) hi
          simp only [List.length_cons] at this
          omega
        obtain ⟨m'', drop, rep''⟩ := ih rep' above' enough'
        refine ⟨m'', drop, ?_⟩
        rw [← at_key, map_dropKey_set hi sortedRun] at rep''
        rwa [← at_key]
      · -- the least head is above the key, and so is every other one: nothing to drop
        rw [if_neg (by simpa using at_key)]
        have same : runs.map (dropKey key) = runs := by
          apply List.ext_getElem?
          intro k
          rw [List.getElem?_map]
          cases hk : runs[k]? with
          | none => rfl
          | some r =>
            cases r with
            | nil => rfl
            | cons e es =>
              have bound := least_of_not_precedes
                (beats (e, k) (rep.heads.symm.subset (mem_headsOf.2 ⟨es, hk⟩)))
              have notBelow := above _ (List.mem_of_getElem? hk) e (List.mem_cons_self ..)
              have topNotBelow := above _ (List.mem_of_getElem? hi) top (List.mem_cons_self ..)
              have ne : e.key ≠ key := by
                intro eq
                rcases bound with lt | ⟨eq', _⟩
                · exact topNotBelow (eq ▸ lt)
                · exact at_key (eq'.trans eq)
              simp [dropKey, ne]
        exact ⟨m, rfl, by rw [same]; exact rep⟩

/-- The least entry left is some run's head: no entry of any run is below the least head. -/
theorem Represents.not_below_least (rep : Represents S m runs) {top : Entry} {i : Nat}
    (hleast : least? m.heads = some (top, i)) : ∀ r ∈ runs, ∀ e ∈ r, ¬ e.key < top.key := by
  obtain ⟨-, beats⟩ := least?_spec hleast
  intro r hr e he below
  obtain ⟨k, hk, rfl⟩ := List.getElem_of_mem hr
  cases hrun : runs[k] with
  | nil => rw [hrun] at he; cases he
  | cons x xs =>
    rw [hrun] at he
    have bound := least_of_not_precedes
      (beats (x, k) (rep.heads.symm.subset (mem_headsOf.2 ⟨xs, by rw [List.getElem?_eq_getElem hk, hrun]⟩)))
    have sorted := rep.sorted _ (List.getElem_mem hk)
    rw [hrun] at sorted
    have xBelow : ¬ x.key < top.key := by
      rcases bound with lt | ⟨eq, _⟩
      · exact key_lt_asymm lt
      · rw [eq]; exact key_lt_irrefl _
    rcases List.mem_cons.1 he with rfl | he
    · exact xBelow below
    · exact xBelow (key_lt_trans (sorted.head_lt e he) below)

/-! ## One version, one live entry -/

theorem Represents.nextVersion_of_nil (rep : Represents S m runs) (fuel : Nat) (none : newest runs = []) :
    nextVersion S fuel m = (m, .ok Option.none) := by
  have noHeads : least? m.heads = Option.none := by
    rw [least?_eq_none_iff]
    suffices empty : headsOf runs = [] from List.Perm.eq_nil (empty ▸ rep.heads)
    rw [headsOf_eq_nil]
    intro r hr
    cases r with
    | nil => rfl
    | cons e es =>
      have := entryOf_newest rep.sorted e.key
      rw [none, entryOf_nil] at this
      have found := ((List.findSome?_eq_none_iff).1 this.symm) _ hr
      rw [entryOf_cons, if_pos rfl] at found
      cases found
  simp [Merge.nextVersion, noHeads]

/-- One version: the first newest version, leaving runs whose newest versions are the rest. -/
theorem Represents.nextVersion_of_cons (rep : Represents S m runs) {fuel : Nat}
    (enough : total runs ≤ fuel) {x : Entry} {xs : List Entry} (first : newest runs = x :: xs) :
    ∃ m' runs', nextVersion S fuel m = (m', .ok (some x)) ∧ Represents S m' runs' ∧
      newest runs' = xs ∧ total runs' < total runs := by
  cases hleast : least? m.heads with
  | none =>
    have empty := headsOf_eq_nil.1 (List.Perm.eq_nil (rep.heads.symm.trans
      (by rw [least?_eq_none_iff.1 hleast])))
    rw [newest_eq_nil empty] at first
    cases first
  | some h =>
    obtain ⟨top, i⟩ := h
    obtain ⟨mem, beats⟩ := least?_spec hleast
    obtain ⟨rest, hi⟩ := mem_headsOf.1 (rep.heads.subset mem)
    have least : ∀ j e r, runs[j]? = some (e :: r) → top.key < e.key ∨ (top.key = e.key ∧ i ≤ j) :=
      fun j e r hj => least_of_not_precedes (beats (e, j) (rep.heads.symm.subset (mem_headsOf.2 ⟨r, hj⟩)))
    have split := newest_eq_cons rep.sorted hi least
    rw [first, List.cons.injEq] at split
    obtain ⟨rfl, rfl⟩ := split
    obtain ⟨m₁, adv, rep₁⟩ := rep.advance hi
    have notBelow := rep.not_below_least hleast
    have above : ∀ r ∈ runs.set i rest, ∀ e ∈ r, ¬ e.key < x.key := by
      intro r hr e he
      rcases mem_of_mem_set hr with hr | rfl
      · exact notBelow r hr e he
      · exact notBelow _ (List.mem_of_getElem? hi) e (List.mem_cons_of_mem x he)
    have shrinks := total_set (x := rest) hi
    simp only [List.length_cons] at shrinks
    obtain ⟨m₂, drop, rep₂⟩ := rep₁.dropShadowed above fuel (by omega)
    have sortedRun := rep.sorted _ (List.mem_of_getElem? hi)
    rw [map_dropKey_set hi sortedRun] at rep₂
    refine ⟨m₂, runs.map (dropKey x.key), ?_, rep₂, rfl, ?_⟩
    · simp [Merge.nextVersion, hleast, adv, drop]
    · have := total_map_dropKey_le x.key (runs.set i rest)
      rw [map_dropKey_set hi sortedRun] at this
      omega

theorem live_cons (e : Entry) (es : List Entry) :
    live (e :: es) = if e.isTombstone then live es else e :: live es := by
  by_cases h : e.isTombstone <;> simp [live, h]

/-- Versions are taken until a live one; with no live version left the merge ends, and leaves
a merge with no live version left either. -/
theorem Represents.nextLive_of_nil (rep : Represents S m runs) {fuel : Nat} (enough : total runs ≤ fuel)
    (steps : Nat) (none : live (newest runs) = []) :
    (nextLive S fuel steps m).1 = Option.none ∧
      ∃ runs', Represents S (nextLive S fuel steps m).2 runs' ∧ live (newest runs') = [] := by
  induction steps generalizing m runs with
  | zero => exact ⟨rfl, runs, rep, none⟩
  | succ steps ih =>
    rw [Merge.nextLive]
    cases hnew : newest runs with
    | nil =>
      rw [rep.nextVersion_of_nil fuel hnew]
      exact ⟨rfl, runs, rep, none⟩
    | cons x xs =>
      obtain ⟨m', runs', next, rep', rest, shrinks⟩ := rep.nextVersion_of_cons enough hnew
      rw [hnew, live_cons] at none
      have tomb : x.isTombstone = true := by
        by_contra h
        rw [if_neg h] at none
        cases none
      rw [if_pos tomb] at none
      rw [next]
      dsimp only
      rw [if_pos tomb]
      exact ih rep' (by omega) (rest ▸ none)

theorem Represents.nextLive_of_cons (rep : Represents S m runs) {fuel : Nat} (enough : total runs ≤ fuel)
    {steps : Nat} (long : (newest runs).length < steps) {x : Entry} {xs : List Entry}
    (first : live (newest runs) = x :: xs) :
    ∃ m' runs', nextLive S fuel steps m = (some (.ok x), m') ∧ Represents S m' runs' ∧
      live (newest runs') = xs ∧ total runs' ≤ total runs := by
  induction steps generalizing m runs with
  | zero => cases long
  | succ steps ih =>
    rw [Merge.nextLive]
    cases hnew : newest runs with
    | nil => rw [hnew] at first; cases first
    | cons y ys =>
      obtain ⟨m', runs', next, rep', rest, shrinks⟩ := rep.nextVersion_of_cons enough hnew
      rw [next]
      dsimp only
      rw [hnew, live_cons] at first
      rw [hnew, List.length_cons] at long
      by_cases tomb : y.isTombstone = true
      · -- a deleted key: go on to the next version
        rw [if_pos tomb] at first ⊢
        obtain ⟨m'', runs'', live, rep'', rest', le⟩ :=
          ih rep' (by omega) (by rw [rest]; omega) (rest ▸ first)
        exact ⟨m'', runs'', live, rep'', rest', by omega⟩
      · rw [if_neg tomb] at first ⊢
        obtain ⟨rfl, rfl⟩ := List.cons.inj first
        exact ⟨m', runs', rfl, rep', rest ▸ rfl, by omega⟩

/-! ## The whole merge -/

theorem foldl_size (sources : List σ) (acc : Nat) :
    sources.foldl (fun acc s => acc + S.size s) acc = acc + (sources.map S.size).sum := by
  induction sources generalizing acc with
  | nil => simp
  | cons s ss ih => rw [List.foldl_cons, ih]; simp [Nat.add_assoc]

/-- What sources still owe is at most what their sizes say. -/
theorem sum_tail_le (sources : List σ) (runs : List (List Entry)) (length : sources.length = runs.length)
    (pending : ∀ (j : Nat) (s : σ) (r : List Entry), sources[j]? = some s → runs[j]? = some r →
      Pending S s r) :
    (runs.map fun r => r.tail.length).sum ≤ (sources.map S.size).sum := by
  induction sources generalizing runs with
  | nil =>
    cases runs with
    | nil => exact Nat.le_refl _
    | cons _ _ => cases length
  | cons s ss ih =>
    cases runs with
    | nil => cases length
    | cons r rs =>
      have head : r.tail.length ≤ S.size s := by
        have := pending 0 s r rfl rfl
        cases r with
        | nil => exact Nat.zero_le _
        | cons e es => exact this.length_le
      have rest := ih rs (by simpa using length) fun j t q ht hq => pending (j + 1) t q ht hq
      simp only [List.map_cons, List.sum_cons]
      omega

/-- The bound a merge gives its steps is more than the entries it has left. -/
theorem Represents.total_lt_bound (rep : Represents S m runs) : total runs < bound S m := by
  have tails := sum_tail_le m.sources runs rep.length rep.pending
  rw [total_eq]
  simp only [bound, foldl_size, Nat.zero_add, rep.heads.length_eq]
  omega

theorem length_union_le (xs ys : List Entry) : (union xs ys).length ≤ xs.length + ys.length := by
  fun_induction union xs ys <;> simp_all <;> omega

theorem length_newest_le_total (runs : List (List Entry)) : (newest runs).length ≤ total runs := by
  induction runs with
  | nil => exact Nat.le_refl _
  | cons run runs ih =>
    have := length_union_le run (newest runs)
    simp only [newest, total, List.map_cons, List.sum_cons] at ih ⊢
    omega

theorem Represents.next (rep : Represents S m runs) :
    match live (newest runs) with
    | [] => (Merge.next S m).1 = Option.none ∧
        ∃ runs', Represents S (Merge.next S m).2 runs' ∧ live (newest runs') = []
    | x :: xs => ∃ m' runs', Merge.next S m = (some (.ok x), m') ∧ Represents S m' runs' ∧
        live (newest runs') = xs := by
  have lt := rep.total_lt_bound
  have len := length_newest_le_total runs
  split
  · rename_i none
    rw [Merge.next, if_neg (by simp [rep.notFailed])]
    refine rep.nextLive_of_nil ?_ _ none
    omega
  · rename_i x xs first
    rw [Merge.next, if_neg (by simp [rep.notFailed])]
    have enough : total runs ≤ bound S m := by omega
    have long : (newest runs).length < bound S m := by omega
    obtain ⟨m', runs', eq, rep', rest, -⟩ := rep.nextLive_of_cons enough long first
    exact ⟨m', runs', eq, rep', rest⟩

theorem Represents.collect (rep : Represents S m runs) (fuel : Nat)
    (enough : (live (newest runs)).length < fuel) :
    collect S fuel m = (live (newest runs)).map .ok := by
  induction fuel generalizing m runs with
  | zero => cases enough
  | succ fuel ih =>
    have step := rep.next
    rw [Merge.collect]
    split at step
    · rename_i none
      obtain ⟨step, -⟩ := step
      rw [none]
      rcases hnext : Merge.next S m with ⟨x, m'⟩
      rw [hnext] at step
      simp only at step
      subst step
      rfl
    · rename_i x xs first
      obtain ⟨m', runs', eq, rep', rest⟩ := step
      rw [eq]
      dsimp only
      rw [first] at enough
      simp only [List.length_cons] at enough
      rw [first, List.map_cons, ih rep' (by rw [rest]; omega), rest]

/-- A merge that represents some runs yields their newest live versions, in ascending key
order. -/
theorem Represents.toList (rep : Represents S m runs) :
    Merge.toList S m = (live (newest runs)).map .ok := by
  have lt := rep.total_lt_bound
  have len := length_newest_le_total runs
  have liveLen : (live (newest runs)).length ≤ (newest runs).length := List.length_filter_le _ _
  exact rep.collect _ (by omega)

/-! ## Starting -/

theorem forall₂_getElem? {sources : List σ} (yields : List.Forall₂ S.Yields sources runs) {j : Nat}
    {s : σ} {r : List Entry} (hs : sources[j]? = some s) (hr : runs[j]? = some r) : S.Yields s r := by
  induction yields generalizing j with
  | nil => simp at hs
  | cons head _ ih =>
    cases j with
    | zero =>
      simp only [List.getElem?_cons_zero, Option.some.injEq] at hs hr
      exact hs ▸ hr ▸ head
    | succ j => exact ih hs hr

theorem advanceFrom_append (m : Merge σ) (l₁ l₂ : List Nat) :
    advanceFrom S m (l₁ ++ l₂) = match advanceFrom S m l₁ with
      | (m', none) => advanceFrom S m' l₂
      | (m', some err) => (m', some err) := by
  induction l₁ generalizing m with
  | nil => rfl
  | cons i is ih =>
    simp only [List.cons_append, advanceFrom]
    split <;> simp [ih]

/-- A merge starts over sources that yield ascending runs: it takes the first entry of each, in
order, and represents the runs. -/
theorem start_of_yields {sources : List σ} (yields : List.Forall₂ S.Yields sources runs)
    (sorted : ∀ r ∈ runs, Ascending r) : ∃ m, start S sources = .ok m ∧ Represents S m runs := by
  have length := yields.length_eq
  -- after the first `k` sources the heads are those of the first `k` runs
  have started : ∀ k ≤ sources.length, ∃ m : Merge σ,
      advanceFrom S { sources } (List.range k) = (m, none) ∧ m.failed = false ∧
        m.sources.length = runs.length ∧ m.heads = headsOf (runs.take k) ∧
        (∀ j s r, j < k → m.sources[j]? = some s → runs[j]? = some r → Pending S s r) ∧
        ∀ j, k ≤ j → m.sources[j]? = sources[j]? := by
    intro k hk
    induction k with
    | zero => exact ⟨{ sources }, rfl, rfl, length, by simp [headsOf, headsFrom], by simp, fun _ _ => rfl⟩
    | succ k ih =>
      obtain ⟨m, adv, notFailed, len, heads, pending, untouched⟩ := ih (by omega)
      have hk' : k < runs.length := by omega
      obtain ⟨s, hs⟩ : ∃ s, sources[k]? = some s := ⟨_, List.getElem?_eq_getElem (by omega)⟩
      obtain ⟨r, hr⟩ : ∃ r, runs[k]? = some r := ⟨_, List.getElem?_eq_getElem hk'⟩
      have yk : S.Yields s r := forall₂_getElem? yields hs hr
      have hs' : m.sources[k]? = some s := by rw [untouched k (Nat.le_refl _), hs]
      -- pulling source `k` for the first time
      obtain ⟨s', pull, owed⟩ := advance_of_yields hs' yk
      refine ⟨{ m with sources := m.sources.set k s', heads := m.heads ++ (r.head?.map (·, k)).toList },
        ?_, notFailed, by simp [len], ?_, ?_, ?_⟩
      · rw [List.range_succ, advanceFrom_append, adv]
        simp [advanceFrom, pull]
      · rw [heads, List.take_add_one, hr]
        simp [headsOf, headsFrom_append, Nat.min_eq_left (Nat.le_of_lt hk')]
      · intro j t q hj ht hq
        by_cases at_k : k = j
        · subst at_k
          rw [hr, Option.some.injEq] at hq
          subst hq
          rw [List.getElem?_set_self (len ▸ hk'), Option.some.injEq] at ht
          exact ht ▸ owed
        · rw [List.getElem?_set_ne at_k] at ht
          exact pending j t q (by omega) ht hq
      · intro j hj
        rw [List.getElem?_set_ne (by omega)]
        exact untouched j (by omega)
  obtain ⟨m, adv, notFailed, len, heads, pending, -⟩ := started sources.length (Nat.le_refl _)
  refine ⟨m, by simp [start, adv], notFailed, len, sorted, ?_, ?_⟩
  · rw [heads, length, List.take_length]
  · intro j s r hs hr
    have : j < runs.length := (List.getElem?_eq_some_iff.1 hr).1
    exact pending j s r (by omega) hs hr

end Merge

end LsmStore
