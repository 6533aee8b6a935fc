import Mathlib
import LsmStore.Merge

/-!
# Newest versions of sorted runs

Every tier of the store is a run: entries in strictly ascending key order, a tombstone
included. A read over several runs, listed newest first, answers each key with the entry of the
first run that holds it. `Run.newest` is that answer as one ascending run, built by merging the
runs pairwise, the newer run winning on a key both hold.

An ascending run is determined by what it answers for each key, so facts about `newest` are
proved by comparing answers: the run's first entry is the least key's newest version
(`newest_eq_cons`), and restricting every run to a key range restricts their newest versions
(`newest_map_filter`).

## Main definitions

* `Run.Ascending` — strictly ascending keys
* `Run.entryOf`, `Run.firstHit` — the entry of a key in one run, and in the first run of several
* `Run.union`, `Run.newest` — the newest versions of two runs, and of several

## Main results

* `Run.Ascending.eq_of_entryOf` — ascending runs with the same answers are equal
* `Run.entryOf_newest` — `newest` answers as the first run holding the key
* `Run.newest_eq_cons` — the least key's newest version comes first
-/

namespace LsmStore

namespace Run

/-- Entries in strictly ascending key order. -/
def Ascending (es : List Entry) : Prop := es.Pairwise fun a b => a.key < b.key

/-- The entry of `key` in a run, a tombstone included. -/
def entryOf (es : List Entry) (key : Bytes) : Option Entry := es.find? (·.key == key)

/-- The entry of `key` in the first of several runs that holds it. -/
def firstHit (runs : List (List Entry)) (key : Bytes) : Option Entry :=
  runs.findSome? (entryOf · key)

/-- Two ascending runs merged into one; on a key both hold, the entry of the first, newer run
is kept. -/
def union : List Entry → List Entry → List Entry
  | [], ys => ys
  | x :: xs, [] => x :: xs
  | x :: xs, y :: ys =>
    if x.key < y.key then x :: union xs (y :: ys)
    else if y.key < x.key then y :: union (x :: xs) ys
    else x :: union xs ys
termination_by xs ys => xs.length + ys.length

/-- The newest version of every key of runs listed newest first. -/
def newest : List (List Entry) → List Entry
  | [] => []
  | run :: older => union run (newest older)

/-- A run without its first entry when that entry has key `key`. -/
def dropKey (key : Bytes) : List Entry → List Entry
  | e :: es => if e.key = key then es else e :: es
  | [] => []

/-! ## The order of keys -/

theorem key_lt_irrefl (k : Bytes) : ¬ k < k := List.lt_irrefl k

theorem key_lt_trans {a b c : Bytes} (hab : a < b) (hbc : b < c) : a < c := List.lt_trans hab hbc

theorem key_ne_of_lt {a b : Bytes} (h : a < b) : a ≠ b := fun same => key_lt_irrefl a (same ▸ h)

theorem key_lt_asymm {a b : Bytes} (h : a < b) : ¬ b < a := fun h' => key_lt_irrefl a (key_lt_trans h h')

theorem key_eq_of_not_lt {a b : Bytes} (h : ¬ a < b) (h' : ¬ b < a) : a = b := by
  rcases Std.lt_trichotomy a b with lt | eq | gt
  · exact absurd lt h
  · exact eq
  · exact absurd gt h'

/-! ## Answers of one run -/

@[simp] theorem entryOf_nil (key : Bytes) : entryOf [] key = none := rfl

theorem entryOf_cons (e : Entry) (es : List Entry) (key : Bytes) :
    entryOf (e :: es) key = if e.key = key then some e else entryOf es key := by
  by_cases h : e.key = key <;> simp [entryOf, h]

theorem entryOf_eq_none_iff {es : List Entry} {key : Bytes} :
    entryOf es key = none ↔ ∀ e ∈ es, e.key ≠ key := by
  simp [entryOf, List.find?_eq_none]

theorem entryOf_eq_some {es : List Entry} {key : Bytes} {e : Entry} (h : entryOf es key = some e) :
    e ∈ es ∧ e.key = key := by
  have found := List.find?_some h
  exact ⟨List.mem_of_find?_eq_some h, by simpa using found⟩

theorem Ascending.cons_iff {e : Entry} {es : List Entry} :
    Ascending (e :: es) ↔ (∀ x ∈ es, e.key < x.key) ∧ Ascending es := List.pairwise_cons

theorem Ascending.tail {e : Entry} {es : List Entry} (h : Ascending (e :: es)) : Ascending es :=
  (Ascending.cons_iff.1 h).2

theorem Ascending.head_lt {e : Entry} {es : List Entry} (h : Ascending (e :: es)) :
    ∀ x ∈ es, e.key < x.key := (Ascending.cons_iff.1 h).1

/-- In an ascending run, a key below the first one is not held. -/
theorem Ascending.entryOf_of_lt {e : Entry} {es : List Entry} (h : Ascending (e :: es)) {key : Bytes}
    (below : key < e.key) : entryOf (e :: es) key = none := by
  rw [entryOf_eq_none_iff]
  intro x hx same
  rcases List.mem_cons.1 hx with rfl | hx
  · exact key_ne_of_lt below same.symm
  · exact key_lt_asymm (h.head_lt x hx) (same ▸ below)

/-- In an ascending run, the entry of a member's key is that member. -/
theorem Ascending.entryOf_of_mem {es : List Entry} (sorted : Ascending es) {x : Entry}
    (hx : x ∈ es) : entryOf es x.key = some x := by
  induction es with
  | nil => cases hx
  | cons y ys ih =>
    rw [entryOf_cons]
    rcases List.mem_cons.1 hx with rfl | hx
    · rw [if_pos rfl]
    · -- a later member has a greater key than the head
      have lt := sorted.head_lt x hx
      rw [if_neg (key_ne_of_lt lt), ih sorted.tail hx]

/-- Ascending runs that answer every key alike are the same run. -/
theorem Ascending.eq_of_entryOf {xs ys : List Entry} (hx : Ascending xs) (hy : Ascending ys)
    (same : ∀ key, entryOf xs key = entryOf ys key) : xs = ys := by
  induction xs generalizing ys with
  | nil =>
    cases ys with
    | nil => rfl
    | cons y ys =>
      have := same y.key
      simp [entryOf_cons] at this
  | cons x xs ih =>
    cases ys with
    | nil =>
      have := same x.key
      simp [entryOf_cons] at this
    | cons y ys =>
      -- the first entries are the least keys of equal runs, so they coincide
      have keys : x.key = y.key := by
        apply key_eq_of_not_lt
        · intro lt
          have := same x.key
          rw [entryOf_cons, if_pos rfl, hy.entryOf_of_lt lt] at this
          cases this
        · intro lt
          have := same y.key
          rw [entryOf_cons y, if_pos rfl, hx.entryOf_of_lt lt] at this
          cases this
      have heads : x = y := by
        have := same x.key
        rw [entryOf_cons, if_pos rfl, entryOf_cons, if_pos keys.symm] at this
        exact Option.some_inj.1 this
      subst heads
      congr 1
      apply ih hx.tail hy.tail
      intro key
      by_cases at_head : x.key = key
      · subst at_head
        rw [(entryOf_eq_none_iff).2 fun e he same => key_ne_of_lt (hx.head_lt e he) same.symm,
          (entryOf_eq_none_iff).2 fun e he same => key_ne_of_lt (hy.head_lt e he) same.symm]
      · have := same key
        rwa [entryOf_cons, if_neg at_head, entryOf_cons, if_neg at_head] at this

theorem entryOf_filter (p : Bytes → Bool) (es : List Entry) (key : Bytes) :
    entryOf (es.filter (p ·.key)) key = if p key then entryOf es key else none := by
  induction es with
  | nil => simp
  | cons e es ih =>
    rw [List.filter_cons, entryOf_cons]
    by_cases pe : p e.key = true
    · rw [if_pos pe, entryOf_cons, ih]
      by_cases h : e.key = key
      · subst h; simp [pe]
      · simp [h]
    · rw [if_neg pe, ih]
      by_cases h : e.key = key
      · subst h; simp [pe]
      · simp [h]

theorem Ascending.filter {es : List Entry} (h : Ascending es) (p : Entry → Bool) :
    Ascending (es.filter p) := List.Pairwise.filter p h

/-! ## Answers of several runs -/

@[simp] theorem firstHit_nil (key : Bytes) : firstHit [] key = none := rfl

@[simp] theorem firstHit_cons (run : List Entry) (older : List (List Entry)) (key : Bytes) :
    firstHit (run :: older) key = (entryOf run key).or (firstHit older key) := by
  simp only [firstHit, List.findSome?_cons]
  cases entryOf run key <;> rfl

theorem firstHit_append (xs ys : List (List Entry)) (key : Bytes) :
    firstHit (xs ++ ys) key = (firstHit xs key).or (firstHit ys key) := by
  induction xs with
  | nil => rfl
  | cons run older ih => rw [List.cons_append, firstHit_cons, firstHit_cons, ih, Option.or_assoc]

/-- What a lookup answers is decided by the first tier holding the key: tiers that answer every
key alike after it leave the answers as they are. -/
theorem firstHit_bind_append {xs ys ys' : List (List Entry)}
    (same : ∀ key, (firstHit ys key).bind Entry.value = (firstHit ys' key).bind Entry.value)
    (key : Bytes) :
    (firstHit (xs ++ ys) key).bind Entry.value = (firstHit (xs ++ ys') key).bind Entry.value := by
  rw [firstHit_append, firstHit_append]
  cases firstHit xs key with
  | some e => rfl
  | none => exact same key

/-! ## Two runs -/

theorem entryOf_union {xs ys : List Entry} (hx : Ascending xs) (key : Bytes) :
    entryOf (union xs ys) key = (entryOf xs key).or (entryOf ys key) := by
  fun_induction union xs ys with
  | case1 ys => simp
  | case2 x xs => simp
  | case3 x xs y ys lt ih =>
    rw [entryOf_cons x, ih hx.tail, entryOf_cons x xs]
    by_cases h : x.key = key <;> simp [h]
  | case4 x xs y ys nlt lt ih =>
    -- `y` comes first, and the newer run holds nothing below its own first key
    rw [entryOf_cons y, ih hx, entryOf_cons y ys]
    by_cases h : y.key = key
    · subst h
      simp [hx.entryOf_of_lt lt]
    · simp [h]
  | case5 x xs y ys nlt nlt' ih =>
    have same := key_eq_of_not_lt nlt nlt'
    rw [entryOf_cons x, ih hx.tail, entryOf_cons x xs, entryOf_cons y, ← same]
    by_cases h : x.key = key <;> simp [h]

theorem mem_union {xs ys : List Entry} {e : Entry} (h : e ∈ union xs ys) : e ∈ xs ∨ e ∈ ys := by
  fun_induction union xs ys with
  | case1 ys => exact .inr h
  | case2 x xs => exact .inl h
  | case3 x xs y ys lt ih =>
    rcases List.mem_cons.1 h with rfl | h
    · exact .inl (List.mem_cons_self ..)
    · exact (ih h).imp (List.mem_cons_of_mem x) id
  | case4 x xs y ys nlt lt ih =>
    rcases List.mem_cons.1 h with rfl | h
    · exact .inr (List.mem_cons_self ..)
    · exact (ih h).imp id (List.mem_cons_of_mem y)
  | case5 x xs y ys nlt nlt' ih =>
    rcases List.mem_cons.1 h with rfl | h
    · exact .inl (List.mem_cons_self ..)
    · exact (ih h).imp (List.mem_cons_of_mem x) (List.mem_cons_of_mem y)

theorem Ascending.union {xs ys : List Entry} (hx : Ascending xs) (hy : Ascending ys) :
    Ascending (Run.union xs ys) := by
  fun_induction Run.union xs ys with
  | case1 ys => exact hy
  | case2 x xs => exact hx
  | case3 x xs y ys lt ih =>
    refine Ascending.cons_iff.2 ⟨fun e he => ?_, ih hx.tail hy⟩
    rcases mem_union he with he | he
    · exact hx.head_lt e he
    · rcases List.mem_cons.1 he with rfl | he
      · exact lt
      · exact key_lt_trans lt (hy.head_lt e he)
  | case4 x xs y ys nlt lt ih =>
    refine Ascending.cons_iff.2 ⟨fun e he => ?_, ih hx hy.tail⟩
    rcases mem_union he with he | he
    · rcases List.mem_cons.1 he with rfl | he
      · exact lt
      · exact key_lt_trans lt (hx.head_lt e he)
    · exact hy.head_lt e he
  | case5 x xs y ys nlt nlt' ih =>
    have same := key_eq_of_not_lt nlt nlt'
    refine Ascending.cons_iff.2 ⟨fun e he => ?_, ih hx.tail hy.tail⟩
    rcases mem_union he with he | he
    · exact hx.head_lt e he
    · exact same ▸ hy.head_lt e he

/-- Merging keeps no more bytes than the two runs hold. -/
theorem size_union_le (f : Entry → Nat) (xs ys : List Entry) :
    ((union xs ys).map f).sum ≤ (xs.map f).sum + (ys.map f).sum := by
  fun_induction union xs ys with
  | case1 ys => simp
  | case2 x xs => simp
  | case3 x xs y ys lt ih =>
    simp only [List.map_cons, List.sum_cons] at ih ⊢
    omega
  | case4 x xs y ys nlt lt ih =>
    simp only [List.map_cons, List.sum_cons] at ih ⊢
    omega
  | case5 x xs y ys nlt nlt' ih =>
    simp only [List.map_cons, List.sum_cons] at ih ⊢
    omega

/-! ## Several runs -/

variable {runs : List (List Entry)}

/-- The newest versions answer each key as the first run holding it does. -/
theorem entryOf_newest (sorted : ∀ r ∈ runs, Ascending r) (key : Bytes) :
    entryOf (newest runs) key = firstHit runs key := by
  induction runs with
  | nil => rfl
  | cons run older ih =>
    rw [newest, entryOf_union (sorted run (List.mem_cons_self ..)),
      ih fun r hr => sorted r (List.mem_cons_of_mem run hr), firstHit_cons]

theorem ascending_newest (sorted : ∀ r ∈ runs, Ascending r) : Ascending (newest runs) := by
  induction runs with
  | nil => exact List.Pairwise.nil
  | cons run older ih =>
    exact (sorted run (List.mem_cons_self ..)).union
      (ih fun r hr => sorted r (List.mem_cons_of_mem run hr))

theorem mem_newest {e : Entry} (h : e ∈ newest runs) : ∃ r ∈ runs, e ∈ r := by
  induction runs with
  | nil => cases h
  | cons run older ih =>
    rcases mem_union h with h | h
    · exact ⟨run, List.mem_cons_self .., h⟩
    · obtain ⟨r, hr, he⟩ := ih h
      exact ⟨r, List.mem_cons_of_mem run hr, he⟩

/-- The newest versions hold no more bytes than all the runs together. -/
theorem size_newest_le (f : Entry → Nat) (runs : List (List Entry)) :
    ((newest runs).map f).sum ≤ (runs.map fun r => (r.map f).sum).sum := by
  induction runs with
  | nil => simp [newest]
  | cons run older ih =>
    have := size_union_le f run (newest older)
    simp only [newest, List.map_cons, List.sum_cons]
    omega

/-- Restricting every run to some keys restricts their newest versions to the same keys. -/
theorem newest_map_filter (sorted : ∀ r ∈ runs, Ascending r) (p : Bytes → Bool) :
    newest (runs.map (·.filter (p ·.key))) = (newest runs).filter (p ·.key) := by
  have sortedFiltered : ∀ r ∈ runs.map (·.filter (p ·.key)), Ascending r := by
    intro r hr
    obtain ⟨r', hr', rfl⟩ := List.mem_map.1 hr
    exact (sorted r' hr').filter _
  apply Ascending.eq_of_entryOf (ascending_newest sortedFiltered)
  · exact (ascending_newest sorted).filter _
  · intro key
    rw [entryOf_newest sortedFiltered, entryOf_filter, entryOf_newest sorted]
    clear sorted sortedFiltered
    induction runs with
    | nil => simp
    | cons run older ih =>
      simp only [List.map_cons, firstHit_cons, entryOf_filter, ih]
      cases p key <;> simp

theorem entryOf_dropKey (key k : Bytes) (es : List Entry) (ne : key ≠ k) :
    entryOf (dropKey key es) k = entryOf es k := by
  cases es with
  | nil => rfl
  | cons e es =>
    by_cases h : e.key = key
    · rw [dropKey, if_pos h, entryOf_cons, if_neg (h ▸ ne)]
    · rw [dropKey, if_neg h]

theorem Ascending.dropKey {es : List Entry} (h : Ascending es) (key : Bytes) :
    Ascending (Run.dropKey key es) := by
  cases es with
  | nil => exact h
  | cons e es =>
    by_cases at_key : e.key = key
    · rw [Run.dropKey, if_pos at_key]
      exact h.tail
    · rw [Run.dropKey, if_neg at_key]
      exact h

/-- When `top` heads run `i`, and every other run's first key is above its key or equal to it
in a later run, then `top` is the least key's newest version: the newest versions are `top`
followed by those of the runs with that key taken off their fronts. -/
theorem newest_eq_cons (sorted : ∀ r ∈ runs, Ascending r) {i : Nat} {top : Entry}
    {rest : List Entry} (hi : runs[i]? = some (top :: rest))
    (least : ∀ j e r, runs[j]? = some (e :: r) → top.key < e.key ∨ (top.key = e.key ∧ i ≤ j)) :
    newest runs = top :: newest (runs.map (dropKey top.key)) := by
  -- every entry left after dropping the least key is above it
  have above : ∀ r ∈ runs.map (dropKey top.key), ∀ e ∈ r, top.key < e.key := by
    intro r hr e he
    obtain ⟨r', hr', rfl⟩ := List.mem_map.1 hr
    obtain ⟨j, hj, hget⟩ := List.getElem_of_mem hr'
    have rs := sorted r' hr'
    cases r' with
    | nil => simp [Run.dropKey] at he
    | cons x xs =>
      have bound := least j x xs (by rw [List.getElem?_eq_getElem hj, hget])
      by_cases at_key : x.key = top.key
      · rw [Run.dropKey, if_pos at_key] at he
        exact at_key ▸ rs.head_lt e he
      · rw [Run.dropKey, if_neg at_key] at he
        have lt : top.key < x.key := bound.resolve_right fun ⟨eq, _⟩ => at_key eq.symm
        rcases List.mem_cons.1 he with rfl | he
        · exact lt
        · exact key_lt_trans lt (rs.head_lt e he)
  have sortedAfter : ∀ r ∈ runs.map (dropKey top.key), Ascending r := by
    intro r hr
    obtain ⟨r', hr', rfl⟩ := List.mem_map.1 hr
    exact (sorted r' hr').dropKey _
  apply Ascending.eq_of_entryOf (ascending_newest sorted)
  · exact Ascending.cons_iff.2 ⟨fun e he => by
      obtain ⟨r, hr, he⟩ := mem_newest he
      exact above r hr e he, ascending_newest sortedAfter⟩
  · intro key
    rw [entryOf_newest sorted, entryOf_cons, entryOf_newest sortedAfter]
    by_cases at_top : top.key = key
    · -- the runs before `i` hold only keys above the least one
      subst at_top
      rw [if_pos rfl]
      have hlen : i < runs.length := (List.getElem?_eq_some_iff.1 hi).1
      rw [← List.take_append_drop i runs, firstHit, List.findSome?_append]
      have before : (runs.take i).findSome? (entryOf · top.key) = none := by
        rw [List.findSome?_eq_none_iff]
        intro r hr
        obtain ⟨j, hj, hget⟩ := List.getElem_of_mem hr
        rw [List.length_take] at hj
        rw [List.getElem_take] at hget
        cases hrun : r with
        | nil => rfl
        | cons x xs =>
          have bound := least j x xs (by
            rw [List.getElem?_eq_getElem (by omega), hget, hrun])
          have lt : top.key < x.key := bound.resolve_right fun ⟨_, le⟩ => by omega
          exact (hrun ▸ sorted r (List.mem_of_mem_take hr)).entryOf_of_lt lt
      rw [before, Option.none_or, List.drop_eq_getElem_cons hlen, List.findSome?_cons,
        (List.getElem?_eq_some_iff.1 hi).2, entryOf_cons, if_pos rfl]
    · -- away from the least key, dropping it changes no answer
      rw [if_neg at_top]
      clear hi least above sortedAfter sorted
      induction runs with
      | nil => rfl
      | cons run older ih =>
        rw [List.map_cons, firstHit_cons, firstHit_cons, entryOf_dropKey _ _ _ at_top, ih]

/-- The newest versions of no entries at all are none. -/
theorem newest_eq_nil (empty : ∀ r ∈ runs, r = []) : newest runs = [] := by
  induction runs with
  | nil => rfl
  | cons run older ih =>
    rw [newest, empty run (List.mem_cons_self ..), ih fun r hr => empty r (List.mem_cons_of_mem run hr)]
    simp [union]

end Run

end LsmStore
