import Mathlib
import LsmStore.Proofs.Merge.Correct

/-!
# What a merge answers, call after call

A merge is asked for its next entry again and again. Over sources that each give an ascending
run and then end, it answers the newest live version of every key, in ascending key order, and
then nothing, however often it is asked (`Represents.answerAt`).

A source may instead fail: it gives some entries and then an error. The merge then either fails
to start, or answers a front part of the same list computed over the runs the sources give before
their errors, then that error once, then nothing. The proof compares the merge with the merge
over the cut sources, in which a failure is the end (`Stream.cut`): both take the same steps
until the first pull that fails (`next_cut`). A failing source holds a head until that pull, so
the merge over the cut sources cannot run out before it (`Doomed`), and the error is answered
in place of some entry of the list or of its end.

## Main definitions

* `Stream.Fails` — what a source gives when pulled until it fails
* `Stream.cut` — a source that ends where another fails
* `Merge.Doomed` — a merge in which a failing source still holds a head
* `Merge.answerAt` — what the merge answers at a given call

## Main results

* `Merge.next_cut` — a merge takes the steps of the merge over the cut sources, or fails
* `Merge.Represents.answerAt` — over sources that end, the newest live versions, then nothing
* `Merge.Represents.answerAt_doomed` — with a failing source, a front part of them, the error,
  then nothing
* `Merge.merge_answers_newest_live` — what a merge started on its sources answers
-/

namespace LsmStore

namespace Stream

variable {σ ε : Type} {S : Stream σ ε} {s s' : σ} {es : List Entry} {err : ε}

/-- Pulling from `s` again and again gives the entries `es`, one per pull, and then the error
`err`; the size of each state bounds what is left after it. -/
inductive Fails (S : Stream σ ε) : σ → List Entry → ε → Prop where
  | here {s s' : σ} {err : ε} (fails : S.pull s = (some (.error err), s')) : Fails S s [] err
  | cons {s s' : σ} {e : Entry} {es : List Entry} {err : ε}
      (gives : S.pull s = (some (.ok e), s')) (rest : Fails S s' es err)
      (sized : es.length < S.size s) : Fails S s (e :: es) err

/-- The source that ends where `S` fails: a pull that would give an error gives the end, and
leaves the state as it was. -/
def cut (S : Stream σ ε) : Stream σ ε where
  pull s := match S.pull s with
    | (some (.error _), _) => (none, s)
    | result => result
  size := S.size

theorem cut_pull_of_ne {x : Option (Except ε Entry)} (pulled : S.pull s = (x, s'))
    (fine : ∀ err, x ≠ some (.error err)) : S.cut.pull s = (x, s') := by
  rcases x with _ | _ | e
  · simp [cut, pulled]
  · exact absurd rfl (fine _)
  · simp [cut, pulled]

theorem cut_pull_of_error (fails : S.pull s = (some (.error err), s')) : S.cut.pull s = (none, s) := by
  simp [cut, fails]

/-- A source that ends ends as well once cut. -/
theorem Yields.cut (h : S.Yields s es) : S.cut.Yields s es := by
  induction h with
  | nil ends => exact .nil (cut_pull_of_ne ends (fun _ => by simp))
  | cons gives _ sized ih => exact .cons (cut_pull_of_ne gives (fun _ => by simp)) ih sized

/-- A source that fails ends, once cut, where it would fail. -/
theorem Fails.cut (h : S.Fails s es err) : S.cut.Yields s es := by
  induction h with
  | here fails => exact .nil (cut_pull_of_error fails)
  | cons gives _ sized ih => exact .cons (cut_pull_of_ne gives (fun _ => by simp)) ih sized

/-- A list of entries, read front to back, yields its entries and then ends. -/
theorem yields_ofList (es : List Entry) : (ofList ε).Yields (es.map .ok) es := by
  induction es with
  | nil => exact .nil rfl
  | cons e es ih => exact .cons rfl ih (by simp [ofList])

end Stream

namespace Merge

open Run

variable {σ ε : Type} {S : Stream σ ε}

/-! ## One pull -/

/-- A pull that does not fail moves only the pulled source, keeps every head, and adds the entry
it gives as that source's head. -/
theorem advance_eq_none {m m' : Merge σ} {i : Nat} (ran : advance S m i = (m', none)) :
    (∀ j, j ≠ i → m'.sources[j]? = m.sources[j]?) ∧ (∀ h ∈ m.heads, h ∈ m'.heads) ∧
      ∀ s, m.sources[i]? = some s → m'.sources[i]? = some (S.pull s).2 ∧
        (∀ err, (S.pull s).1 ≠ some (.error err)) ∧
        ∀ e, (S.pull s).1 = some (.ok e) → (e, i) ∈ m'.heads := by
  cases hs : m.sources[i]? with
  | none =>
    have step : advance S m i = (m, none) := by simp [advance, hs]
    rw [step] at ran
    obtain rfl := (Prod.mk.inj ran).1
    exact ⟨fun _ _ => rfl, fun _ member => member, fun _ none => by cases none⟩
  | some s =>
    have inRange : i < m.sources.length := (List.getElem?_eq_some_iff.1 hs).1
    -- the pull gives the end, an entry, or an error; only the first two go on
    rcases pulled : S.pull s with ⟨_ | err | e, s'⟩
    · have step : advance S m i = ({ m with sources := m.sources.set i s' }, none) := by
        simp [advance, hs, pulled]
      rw [step] at ran
      obtain rfl := (Prod.mk.inj ran).1
      refine ⟨fun j ne => List.getElem?_set_ne (Ne.symm ne), fun _ member => member, ?_⟩
      rintro _ ⟨⟩
      exact ⟨by simp [inRange, pulled], fun _ => by simp [pulled], fun _ => by simp [pulled]⟩
    · have step : advance S m i = ({ m with sources := m.sources.set i s' }, some err) := by
        simp [advance, hs, pulled]
      rw [step] at ran
      cases ran
    · have step : advance S m i =
          ({ m with sources := m.sources.set i s', heads := m.heads ++ [(e, i)] }, none) := by
        simp [advance, hs, pulled]
      rw [step] at ran
      obtain rfl := (Prod.mk.inj ran).1
      refine ⟨fun j ne => List.getElem?_set_ne (Ne.symm ne),
        fun _ member => List.mem_append_left _ member, ?_⟩
      rintro _ ⟨⟩
      refine ⟨by simp [inRange, pulled], fun _ => by simp [pulled], ?_⟩
      intro e' same
      simp only [pulled, Option.some.injEq, Except.ok.injEq] at same
      simp [same]

/-! ## In step with the cut sources -/

/-- A pull gives what it gives from the cut sources, unless it fails. -/
theorem advance_cut (m : Merge σ) (i : Nat) :
    advance S m i = advance S.cut m i ∨ ∃ err, (advance S m i).2 = some err := by
  cases hs : m.sources[i]? with
  | none => exact .inl (by simp [advance, hs])
  | some s =>
    rcases pulled : S.pull s with ⟨_ | err | e, s'⟩
    · left
      simp [advance, hs, pulled, Stream.cut_pull_of_ne pulled (fun _ => by simp)]
    · exact .inr ⟨err, by simp [advance, hs, pulled]⟩
    · left
      simp [advance, hs, pulled, Stream.cut_pull_of_ne pulled (fun _ => by simp)]

theorem advanceFrom_cut (m : Merge σ) (is : List Nat) :
    advanceFrom S m is = advanceFrom S.cut m is ∨ ∃ err, (advanceFrom S m is).2 = some err := by
  induction is generalizing m with
  | nil => exact .inl rfl
  | cons i is ih =>
    rcases advance_cut (S := S) m i with same | ⟨err, failed⟩
    · simp only [advanceFrom, same]
      rcases advance S.cut m i with ⟨m', _ | err⟩
      · exact ih m'
      · exact .inl rfl
    · right
      refine ⟨err, ?_⟩
      rcases pulled : advance S m i with ⟨m', x⟩
      rw [pulled] at failed
      subst failed
      simp [advanceFrom, pulled]

/-- A merge starts as it would over the cut sources, unless a first pull fails. -/
theorem start_cut (sources : List σ) :
    start S sources = start S.cut sources ∨ ∃ err, start S sources = .error err := by
  rcases advanceFrom_cut (S := S) { sources } (List.range sources.length) with same | ⟨err, failed⟩
  · exact .inl (by simp only [start, same])
  · right
    refine ⟨err, ?_⟩
    rcases pulled : advanceFrom S { sources } (List.range sources.length) with ⟨m, x⟩
    rw [pulled] at failed
    subst failed
    simp [start, pulled]

theorem dropShadowed_cut (key : Bytes) (fuel : Nat) (m : Merge σ) :
    dropShadowed S key fuel m = dropShadowed S.cut key fuel m ∨
      ∃ err, (dropShadowed S key fuel m).2 = some err := by
  induction fuel generalizing m with
  | zero => exact .inl rfl
  | succ fuel ih =>
    simp only [Merge.dropShadowed]
    rcases least? m.heads with _ | ⟨top, i⟩
    · exact .inl rfl
    · dsimp only
      split
      · rcases advance_cut (S := S) (m.dropHead i) i with same | ⟨err, failed⟩
        · rw [same]
          rcases advance S.cut (m.dropHead i) i with ⟨m', _ | err⟩
          · exact ih m'
          · exact .inl rfl
        · right
          refine ⟨err, ?_⟩
          rcases pulled : advance S (m.dropHead i) i with ⟨m', x⟩
          rw [pulled] at failed
          subst failed
          rfl
      · exact .inl rfl

theorem nextVersion_cut (fuel : Nat) (m : Merge σ) :
    nextVersion S fuel m = nextVersion S.cut fuel m ∨
      ∃ err, (nextVersion S fuel m).2 = .error err := by
  simp only [Merge.nextVersion]
  rcases least? m.heads with _ | ⟨top, i⟩
  · exact .inl rfl
  · dsimp only
    rcases advance_cut (S := S) (m.dropHead i) i with same | ⟨err, failed⟩
    · rw [same]
      rcases advance S.cut (m.dropHead i) i with ⟨m', _ | err⟩
      · dsimp only
        rcases dropShadowed_cut (S := S) top.key fuel m' with same' | ⟨err, failed⟩
        · rw [same']
          exact .inl rfl
        · right
          refine ⟨err, ?_⟩
          rcases dropped : dropShadowed S top.key fuel m' with ⟨m'', x⟩
          rw [dropped] at failed
          subst failed
          rfl
      · exact .inl rfl
    · right
      refine ⟨err, ?_⟩
      rcases pulled : advance S (m.dropHead i) i with ⟨m', x⟩
      rw [pulled] at failed
      subst failed
      rfl

theorem nextLive_cut (fuel steps : Nat) (m : Merge σ) :
    nextLive S fuel steps m = nextLive S.cut fuel steps m ∨
      ∃ err, (nextLive S fuel steps m).1 = some (.error err) ∧
        (nextLive S fuel steps m).2.failed = true := by
  induction steps generalizing m with
  | zero => exact .inl rfl
  | succ steps ih =>
    simp only [Merge.nextLive]
    rcases nextVersion_cut (S := S) fuel m with same | ⟨err, failed⟩
    · rw [same]
      rcases nextVersion S.cut fuel m with ⟨m', _ | _ | e⟩
      · exact .inl rfl
      · exact .inl rfl
      · dsimp only
        split
        · exact ih m'
        · exact .inl rfl
    · right
      rcases version : nextVersion S fuel m with ⟨m', x⟩
      rw [version] at failed
      subst failed
      exact ⟨err, rfl, rfl⟩

/-- The next answer of a merge is the one it would give over the cut sources, unless a pull
fails; the merge then answers the error and is over. -/
theorem next_cut (m : Merge σ) :
    next S m = next S.cut m ∨
      ∃ err, (next S m).1 = some (.error err) ∧ (next S m).2.failed = true := by
  unfold next
  split
  · exact .inl rfl
  · exact nextLive_cut (bound S m) (bound S m) m

/-! ## A failing source holds a head -/

/-- A merge in which some source still holds a head and fails once pulled past its entries. -/
def Doomed (S : Stream σ ε) (m : Merge σ) : Prop :=
  ∃ j s e es err, m.sources[j]? = some s ∧ (e, j) ∈ m.heads ∧ S.Fails s es err

variable {m : Merge σ}

theorem Doomed.heads_ne_nil (doomed : Doomed S m) : m.heads ≠ [] := by
  obtain ⟨j, s, e, es, err, -, held, -⟩ := doomed
  exact List.ne_nil_of_mem held

/-- A pull that does not fail keeps a failing source's head, or gives it the next one. -/
theorem Doomed.advance (doomed : Doomed S m) (i : Nat)
    (fine : (Merge.advance S (m.dropHead i) i).2 = none) :
    Doomed S (Merge.advance S (m.dropHead i) i).1 := by
  obtain ⟨j, s, e, es, err, hs, held, fails⟩ := doomed
  obtain ⟨others, kept, pulled⟩ := advance_eq_none (S := S) (m := m.dropHead i)
    (show Merge.advance S (m.dropHead i) i = (_, none) by rw [← fine])
  by_cases same : j = i
  · -- the failing source is the one pulled: it gives its next entry, since it does not fail yet
    subst same
    obtain ⟨moved, notFailed, gives⟩ := pulled s hs
    cases fails with
    | here failing => exact absurd (congrArg Prod.fst failing) (notFailed err)
    | cons giving rest _ =>
      rw [giving] at moved gives
      exact ⟨j, _, _, _, err, moved, gives _ rfl, rest⟩
  · refine ⟨j, s, e, es, err, (others j same).trans hs, kept _ ?_, fails⟩
    simp [dropHead, held, same]

theorem Doomed.dropShadowed (doomed : Doomed S m) (key : Bytes) (fuel : Nat)
    (fine : (Merge.dropShadowed S key fuel m).2 = none) :
    Doomed S (Merge.dropShadowed S key fuel m).1 := by
  induction fuel generalizing m with
  | zero => exact doomed
  | succ fuel ih =>
    simp only [Merge.dropShadowed] at fine ⊢
    cases hleast : least? m.heads with
    | none => exact doomed
    | some h =>
      obtain ⟨top, i⟩ := h
      simp only [hleast] at fine ⊢
      by_cases hkey : (top.key == key) = true
      · rw [if_pos hkey] at fine ⊢
        rcases pulled : Merge.advance S (m.dropHead i) i with ⟨m', _ | err⟩ <;>
          rw [pulled] at fine <;> dsimp only at fine ⊢
        · have moved := doomed.advance i (by rw [pulled])
          rw [pulled] at moved
          exact ih moved fine
        · cases fine
      · rw [if_neg hkey]
        exact doomed

/-- With a failing source holding a head, the next version is some entry, unless a pull fails. -/
theorem Doomed.nextVersion (doomed : Doomed S m) (fuel : Nat)
    (fine : ∀ err, (Merge.nextVersion S fuel m).2 ≠ .error err) :
    (∃ x, (Merge.nextVersion S fuel m).2 = .ok (some x)) ∧
      Doomed S (Merge.nextVersion S fuel m).1 := by
  simp only [Merge.nextVersion] at fine ⊢
  cases hleast : least? m.heads with
  | none => exact absurd (least?_eq_none_iff.1 hleast) doomed.heads_ne_nil
  | some h =>
    obtain ⟨top, i⟩ := h
    simp only [hleast] at fine ⊢
    rcases pulled : Merge.advance S (m.dropHead i) i with ⟨m', _ | err⟩ <;>
      rw [pulled] at fine <;> dsimp only at fine ⊢
    · have moved := doomed.advance i (by rw [pulled])
      rw [pulled] at moved
      rcases dropped : Merge.dropShadowed S top.key fuel m' with ⟨m'', _ | err⟩ <;>
        rw [dropped] at fine <;> dsimp only at fine ⊢
      · have kept := moved.dropShadowed top.key fuel (by rw [dropped])
        rw [dropped] at kept
        exact ⟨⟨top, rfl⟩, kept⟩
      · exact absurd rfl (fine err)
    · exact absurd rfl (fine err)

/-! ## Answers over sources that may fail -/

variable {runs : List (List Entry)}

/-- Over cut sources that still owe a failure, taking versions until a live one gives the first
live version and keeps the failing source's head, unless a pull fails; it never ends. -/
theorem Represents.nextLive_doomed (rep : Represents S.cut m runs) (doomed : Doomed S m)
    {fuel steps : Nat} (enough : total runs ≤ fuel) (long : total runs < steps) :
    (∃ x xs, live (newest runs) = x :: xs ∧ ∃ m' runs', nextLive S fuel steps m = (some (.ok x), m') ∧
      Represents S.cut m' runs' ∧ live (newest runs') = xs ∧ Doomed S m') ∨
    ∃ err, (nextLive S fuel steps m).1 = some (.error err) ∧
      (nextLive S fuel steps m).2.failed = true := by
  induction steps generalizing m runs with
  | zero => exact absurd long (Nat.not_lt_zero _)
  | succ steps ih =>
    rcases nextVersion_cut (S := S) fuel m with same | ⟨err, failed⟩
    · cases hnew : newest runs with
      | nil =>
        -- over the cut sources the merge would end here, which a failing head rules out
        have ended := rep.nextVersion_of_nil fuel hnew
        obtain ⟨⟨x, some⟩, -⟩ := doomed.nextVersion fuel (fun err failed => by
          rw [same, ended] at failed
          cases failed)
        rw [same, ended] at some
        cases some
      | cons y ys =>
        obtain ⟨m', runs', version, rep', rest, shrinks⟩ := rep.nextVersion_of_cons enough hnew
        have doomed' := (doomed.nextVersion fuel (fun err failed => by
          rw [same, version] at failed
          cases failed)).2
        rw [same, version] at doomed'
        rw [Merge.nextLive, same, version]
        dsimp only
        by_cases tomb : y.isTombstone = true
        · -- a deleted key: go on to the next version
          rw [if_pos tomb]
          rcases ih rep' doomed' (by omega) (by omega) with ⟨x, xs, first, found⟩ | failed
          · refine .inl ⟨x, xs, ?_, found⟩
            rw [live_cons, if_pos tomb, ← rest, first]
          · exact .inr failed
        · rw [if_neg tomb]
          refine .inl ⟨y, live ys, by rw [live_cons, if_neg tomb], m', runs', rfl, rep', ?_, doomed'⟩
          rw [rest]
    · right
      refine ⟨err, ?_⟩
      rw [Merge.nextLive]
      rcases version : nextVersion S fuel m with ⟨m', x⟩
      rw [version] at failed
      subst failed
      exact ⟨rfl, rfl⟩

/-- Over cut sources that still owe a failure, the next answer is the first live version, and
the failing source keeps a head; or a pull fails, and the merge answers the error and is over. -/
theorem Represents.next_doomed (rep : Represents S.cut m runs) (doomed : Doomed S m) :
    (∃ x xs, live (newest runs) = x :: xs ∧ ∃ m' runs', Merge.next S m = (some (.ok x), m') ∧
      Represents S.cut m' runs' ∧ live (newest runs') = xs ∧ Doomed S m') ∨
    ∃ err, (Merge.next S m).1 = some (.error err) ∧ (Merge.next S m).2.failed = true := by
  have lt : total runs < bound S m := rep.total_lt_bound
  rw [Merge.next, if_neg (by simp [rep.notFailed])]
  exact rep.nextLive_doomed doomed (Nat.le_of_lt lt) lt

/-- What the `i`-th call for the next entry answers, counting from 0, on a merge in state `m`. -/
def answerAt (S : Stream σ ε) : Nat → Merge σ → Option (Except ε Entry)
  | 0, m => (next S m).1
  | i + 1, m => answerAt S i (next S m).2

/-- A merge that is over answers nothing. -/
theorem answerAt_of_failed (failed : m.failed = true) (i : Nat) : answerAt S i m = none := by
  have stopped : next S m = (none, m) := by simp [next, failed]
  induction i with
  | zero => simp [answerAt, stopped]
  | succ i ih => rw [answerAt, stopped, ih]

/-- Over sources that end, the `i`-th answer is the `i`-th newest live version, and nothing past
the last. -/
theorem Represents.answerAt (rep : Represents S m runs) (i : Nat) :
    Merge.answerAt S i m = ((live (newest runs)).map .ok)[i]? := by
  induction i generalizing m runs with
  | zero =>
    have step := rep.next
    split at step
    · rename_i none
      rw [Merge.answerAt, step.1, none]
      rfl
    · rename_i x xs first
      obtain ⟨m', runs', eq, -⟩ := step
      rw [Merge.answerAt, eq, first]
      rfl
  | succ i ih =>
    have step := rep.next
    split at step
    · rename_i none
      obtain ⟨-, runs', rep', none'⟩ := step
      rw [Merge.answerAt, ih rep', none', none]
      rfl
    · rename_i x xs first
      obtain ⟨m', runs', eq, rep', rest⟩ := step
      rw [Merge.answerAt, eq, ih rep', rest, first]
      rfl

/-- Over cut sources that still owe a failure, the answers are the first `k` newest live
versions, then one error, then nothing. -/
theorem Represents.answerAt_doomed (rep : Represents S.cut m runs) (doomed : Doomed S m) :
    ∃ k err, k ≤ (live (newest runs)).length ∧
      ∀ i, Merge.answerAt S i m = (((live (newest runs)).take k).map .ok ++ [.error err])[i]? := by
  -- induction on the live versions left, which each answer shortens by one
  generalize hversions : live (newest runs) = versions
  induction versions generalizing m runs with
  | nil =>
    rcases rep.next_doomed doomed with ⟨x, xs, first, -⟩ | ⟨err, answered, stopped⟩
    · rw [hversions] at first
      cases first
    · refine ⟨0, err, Nat.zero_le _, ?_⟩
      intro i
      cases i with
      | zero => exact answered
      | succ i => rw [Merge.answerAt, answerAt_of_failed stopped]; rfl
  | cons x xs ih =>
    rcases rep.next_doomed doomed with ⟨y, ys, first, m', runs', eq, rep', rest, doomed'⟩ |
      ⟨err, answered, stopped⟩
    · rw [hversions, List.cons.injEq] at first
      obtain ⟨rfl, rfl⟩ := first
      obtain ⟨k, err, within, answers⟩ := ih rep' doomed' rest
      refine ⟨k + 1, err, by simpa using within, ?_⟩
      intro i
      cases i with
      | zero => rw [Merge.answerAt, eq]; rfl
      | succ i => rw [Merge.answerAt, eq, answers i]; rfl
    · refine ⟨0, err, Nat.zero_le _, ?_⟩
      intro i
      cases i with
      | zero => exact answered
      | succ i => rw [Merge.answerAt, answerAt_of_failed stopped]; rfl

/-! ## Starting -/

/-- Advancing sources `0, …, k - 1` of a fresh merge without an error pulls each of them once:
each holds the state its pull left, no pull gave an error, an entry a pull gave is that source's
head, and the later sources are untouched. -/
theorem advanceFrom_range_pulls {sources : List σ} (k : Nat) {m : Merge σ}
    (ran : advanceFrom S { sources } (List.range k) = (m, none)) :
    (∀ j, k ≤ j → m.sources[j]? = sources[j]?) ∧
      ∀ j < k, ∀ s, sources[j]? = some s → m.sources[j]? = some (S.pull s).2 ∧
        (∀ err, (S.pull s).1 ≠ some (.error err)) ∧
        ∀ e, (S.pull s).1 = some (.ok e) → (e, j) ∈ m.heads := by
  induction k generalizing m with
  | zero =>
    obtain rfl := (Prod.mk.inj ran).1.symm
    exact ⟨fun _ _ => rfl, fun _ below => absurd below (Nat.not_lt_zero _)⟩
  | succ k ih =>
    rw [List.range_succ, advanceFrom_append] at ran
    rcases before : advanceFrom S { sources } (List.range k) with ⟨m', _ | err⟩ <;>
      rw [before] at ran <;> simp only [advanceFrom] at ran
    · obtain ⟨untouched, done⟩ := ih before
      -- the last source pulled is source `k`
      rcases pulled : Merge.advance S m' k with ⟨m'', _ | err⟩ <;>
        rw [pulled] at ran <;> simp only [Prod.mk.injEq, reduceCtorEq, and_false] at ran
      obtain rfl := ran.1
      obtain ⟨others, kept, fresh⟩ := advance_eq_none pulled
      refine ⟨fun j le => (others j (by omega)).trans (untouched j (by omega)), ?_⟩
      intro j below s hs
      by_cases at_k : j = k
      · subst at_k
        exact fresh s ((untouched j (Nat.le_refl _)).trans hs)
      · obtain ⟨moved, fine, held⟩ := done j (by omega) s hs
        exact ⟨(others j at_k).trans moved, fine, fun e gave => kept _ (held e gave)⟩
    · simp at ran

/-- After a start that does not fail every source has been pulled once, without an error, and an
entry it gave is its head. -/
theorem start_pulls {sources : List σ} {m : Merge σ} (started : start S sources = .ok m) {j : Nat}
    {s : σ} (hs : sources[j]? = some s) :
    m.sources[j]? = some (S.pull s).2 ∧ (∀ err, (S.pull s).1 ≠ some (.error err)) ∧
      ∀ e, (S.pull s).1 = some (.ok e) → (e, j) ∈ m.heads := by
  have inRange : j < sources.length := (List.getElem?_eq_some_iff.1 hs).1
  rcases ran : advanceFrom S { sources } (List.range sources.length) with ⟨m', _ | err⟩
  · have same : m' = m := by simpa [start, ran] using started
    subst same
    exact (advanceFrom_range_pulls _ ran).2 j inRange s hs
  · simp [start, ran] at started

/-- A merge that starts over a source that fails later starts doomed: the first pull of that
source cannot have failed, so the source holds a head and still owes the failure. -/
theorem start_doomed {sources : List σ} {m : Merge σ} (started : start S sources = .ok m)
    {j : Nat} {s : σ} {es : List Entry} {err : ε} (hs : sources[j]? = some s)
    (fails : S.Fails s es err) : Doomed S m := by
  obtain ⟨moved, fine, held⟩ := start_pulls started hs
  cases fails with
  | here failing => exact absurd (by rw [failing]) (fine err)
  | cons gives rest _ =>
    rw [gives] at moved held
    exact ⟨j, _, _, _, err, moved, held _ rfl, rest⟩

/-! ## The list a merge answers -/

/-- The newest live versions hold, for every key some run holds, the entry of the first run
holding it, unless that entry is a tombstone. -/
theorem mem_live_newest (sorted : ∀ r ∈ runs, Ascending r) {e : Entry} :
    e ∈ live (newest runs) ↔ firstHit runs e.key = some e ∧ e.isTombstone = false := by
  rw [live, List.mem_filter, ← entryOf_newest sorted]
  constructor
  · rintro ⟨member, alive⟩
    exact ⟨(ascending_newest sorted).entryOf_of_mem member, by simpa using alive⟩
  · rintro ⟨found, alive⟩
    exact ⟨(entryOf_eq_some found).1, by simp [alive]⟩

/-- Over sources that end, a merge starts, answers the newest live versions, and then nothing. -/
theorem answers_of_yields {sources : List σ} (yields : List.Forall₂ S.Yields sources runs)
    (sorted : ∀ r ∈ runs, Ascending r) :
    ∃ m, start S sources = .ok m ∧ ∀ i, answerAt S i m = ((live (newest runs)).map .ok)[i]? := by
  obtain ⟨m, started, rep⟩ := start_of_yields yields sorted
  exact ⟨m, started, rep.answerAt⟩

/-- Over sources of which one fails, a merge fails to start, or answers a front part of the
newest live versions of what the sources give before failing, then an error, and then nothing. -/
theorem answers_of_fails {sources : List σ}
    (gives : List.Forall₂ (fun s r => S.Yields s r ∨ ∃ err, S.Fails s r err) sources runs)
    (sorted : ∀ r ∈ runs, Ascending r) {j : Nat} {s : σ} {es : List Entry} {err : ε}
    (hs : sources[j]? = some s) (fails : S.Fails s es err) :
    (∃ err, start S sources = .error err) ∨
      ∃ m k err, start S sources = .ok m ∧ k ≤ (live (newest runs)).length ∧
        ∀ i, answerAt S i m = (((live (newest runs)).take k).map .ok ++ [.error err])[i]? := by
  -- cut, every source ends where it would fail
  have cut : List.Forall₂ S.cut.Yields sources runs :=
    gives.imp fun _ _ given => given.elim Stream.Yields.cut fun ⟨_, failing⟩ => failing.cut
  rcases start_cut (S := S) sources with same | failed
  · obtain ⟨m, started, rep⟩ := start_of_yields cut sorted
    rw [← same] at started
    obtain ⟨k, err', within, answers⟩ := rep.answerAt_doomed (start_doomed started hs fails)
    exact .inr ⟨m, k, err', started, within, answers⟩
  · exact .inl failed

/-- What a merge answers. The newest live versions of some ascending runs are ascending and hold,
for every key, the entry of the first run holding it unless that entry is a tombstone. Over
sources that yield those runs and end, a merge starts, answers them call after call, and then
nothing. Over sources that yield them and then end or fail, some source failing, a merge fails to
start, or answers a front part of them, then an error, and then nothing. -/
theorem start_answers_newest_live {sources : List σ} (sorted : ∀ r ∈ runs, Ascending r) :
    (Ascending (live (newest runs)) ∧
      ∀ e, e ∈ live (newest runs) ↔ firstHit runs e.key = some e ∧ e.isTombstone = false) ∧
    (List.Forall₂ S.Yields sources runs →
      ∃ m, start S sources = .ok m ∧ ∀ i, answerAt S i m = ((live (newest runs)).map .ok)[i]?) ∧
    (List.Forall₂ (fun s r => S.Yields s r ∨ ∃ err, S.Fails s r err) sources runs →
      (∃ s ∈ sources, ∃ es err, S.Fails s es err) →
      (∃ err, start S sources = .error err) ∨
        ∃ m k err, start S sources = .ok m ∧ k ≤ (live (newest runs)).length ∧
          ∀ i, answerAt S i m = (((live (newest runs)).take k).map .ok ++ [.error err])[i]?) := by
  refine ⟨⟨(ascending_newest sorted).filter _, fun _ => mem_live_newest sorted⟩,
    fun yields => answers_of_yields yields sorted, ?_⟩
  rintro gives ⟨s, member, es, err, fails⟩
  obtain ⟨j, hs⟩ := List.mem_iff_getElem?.1 member
  exact answers_of_fails gives sorted hs fails

/-- Two lists merged: key 1 from the first, key 2 from the second, and key 3 deleted by the
first. -/
theorem start_answers_newest_live_sample :
    ∃ m, start (Stream.ofList Unit)
        [[.ok ⟨[1], some [1]⟩, .ok ⟨[3], none⟩],
          [.ok ⟨[1], some [2]⟩, .ok ⟨[2], some [2]⟩, .ok ⟨[3], some [3]⟩]] = .ok m ∧
      ∀ i, answerAt (Stream.ofList Unit) i m = [.ok ⟨[1], some [1]⟩, .ok ⟨[2], some [2]⟩][i]? := by
  have sorted : ∀ r ∈ [[⟨[1], some [1]⟩, ⟨[3], none⟩],
      [⟨[1], some [2]⟩, ⟨[2], some [2]⟩, ⟨[3], some [3]⟩]], Ascending r := by
    unfold Ascending
    decide
  have answers := (start_answers_newest_live (S := Stream.ofList Unit) sorted).2.1
    (.cons (Stream.yields_ofList _) (.cons (Stream.yields_ofList _) .nil))
  have versions : live (newest [[⟨[1], some [1]⟩, ⟨[3], none⟩],
      [⟨[1], some [2]⟩, ⟨[2], some [2]⟩, ⟨[3], some [3]⟩]]) =
      [⟨[1], some [1]⟩, ⟨[2], some [2]⟩] := by
    decide +kernel
  rw [versions] at answers
  exact answers

end Merge

end LsmStore
