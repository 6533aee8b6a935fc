import LsmStore.Table.Builder
import LsmStore.Proofs.Merge.Correct

/-!
# Reading a table back

A table whose data file holds `dataOf es` and whose index file holds `indexOf es` reads back as
`es`, as long as the entries are what a table can hold: ascending keys, lengths that fit their
32-bit fields, and a data file whose offsets fit the 64-bit index slots. The index slot of a
position gives the offset at which its entry's encoding starts, the bytes up to the next offset
are exactly that encoding, and the binary search finds the first position whose key is not
below the one asked for. So a lookup answers as the run `es` does, and a scan over a key range
yields the entries of `es` in that range.

## Main definitions

* `Table.Storable` — entries a table can hold and read back
* `Table.Holds` — an open table whose files hold some entries

## Main results

* `Table.Holds.get?` — a lookup answers as the run does
* `Table.Holds.yields` — a scan yields the positions it covers
* `Table.Holds.cursor` — the positions of a key range are the entries in it
-/

namespace LsmStore

namespace Table

open Run

/-- Entries a table can hold and read back: ascending keys, key lengths that fit 32 bits,
value lengths below the tombstone mark, and a data file shorter than 2^64 bytes. -/
structure Storable (es : List Entry) : Prop where
  sorted : Ascending es
  keys : ∀ e ∈ es, e.key.length < 2 ^ 32
  values : ∀ e ∈ es, ∀ v, e.value = some v → v.length < Entry.tombstoneMark
  small : (dataOf es).length < 2 ^ 64

/-- An open table whose files, as `v` has them, hold the entries `es`. -/
structure Holds (v : Volume) (t : Table) (es : List Entry) : Prop where
  storable : Storable es
  data : ∃ i, t.data.inode = some i ∧ v.contents i = dataOf es
  dataLength : t.data.length = (dataOf es).length
  index : ∃ i, t.index.inode = some i ∧ v.contents i = indexOf es
  indexLength : t.index.length = (indexOf es).length

/-! ## The files of some entries -/

@[simp] theorem dataOf_nil : dataOf [] = [] := rfl

theorem dataOf_cons (e : Entry) (es : List Entry) : dataOf (e :: es) = e.encode ++ dataOf es := rfl

theorem dataOf_append (xs ys : List Entry) : dataOf (xs ++ ys) = dataOf xs ++ dataOf ys := by
  simp [dataOf]

theorem length_dataOf (es : List Entry) : (dataOf es).length = (es.map Entry.encodedLen).sum := by
  induction es with
  | nil => rfl
  | cons e es ih => simp [dataOf_cons, ih]

/-- The data file splits at the start of entry `p`, and again at its end. -/
theorem dataOf_split {es : List Entry} {p : Nat} (hp : p < es.length) :
    dataOf es = dataOf (es.take p) ++ (es[p].encode ++ dataOf (es.drop (p + 1))) := by
  conv => lhs; rw [← List.take_append_drop p es, List.drop_eq_getElem_cons hp]
  rw [dataOf_append, dataOf_cons]

theorem length_offsetsFrom (start : Nat) (es : List Entry) : (offsetsFrom start es).length = es.length := by
  induction es generalizing start with
  | nil => rfl
  | cons e es ih => simp [offsetsFrom, ih]

/-- Entry `p` starts after the entries before it. -/
theorem getElem?_offsetsFrom (start : Nat) (es : List Entry) {p : Nat} (hp : p < es.length) :
    (offsetsFrom start es)[p]? = some (start + (dataOf (es.take p)).length) := by
  induction es generalizing start p with
  | nil => cases hp
  | cons e es ih =>
    cases p with
    | zero => simp [offsetsFrom]
    | succ p =>
      rw [offsetsFrom, List.getElem?_cons_succ, ih _ (by simpa using hp)]
      simp [dataOf_cons, Nat.add_assoc]

theorem drop_flatten_of_width {ws : List Bytes} {w : Nat} (hw : ∀ x ∈ ws, x.length = w) (p : Nat) :
    ws.flatten.drop (p * w) = (ws.drop p).flatten := by
  induction ws generalizing p with
  | nil => simp
  | cons x xs ih =>
    cases p with
    | zero => simp
    | succ p =>
      rw [List.flatten_cons, Nat.succ_mul, Nat.add_comm, ← List.drop_drop,
        List.drop_left' (hw x (List.mem_cons_self ..)), ih (fun y hy => hw y (List.mem_cons_of_mem x hy)),
        List.drop_succ_cons]

theorem length_indexOf (es : List Entry) : (indexOf es).length = offsetSize * es.length := by
  suffices ∀ start, (((offsetsFrom start es).map (Bytes.ofNatLE offsetSize)).flatten).length =
      offsetSize * es.length from this 0
  intro start
  induction es generalizing start with
  | nil => rfl
  | cons e es ih =>
    rw [offsetsFrom, List.map_cons, List.flatten_cons, List.length_append, Bytes.length_ofNatLE, ih,
      List.length_cons, Nat.mul_succ, Nat.add_comm]

theorem offsetsFrom_append (start : Nat) (xs ys : List Entry) :
    offsetsFrom start (xs ++ ys) =
      offsetsFrom start xs ++ offsetsFrom (start + (dataOf xs).length) ys := by
  induction xs generalizing start with
  | nil => simp [offsetsFrom]
  | cons x xs ih =>
    simp only [List.cons_append, offsetsFrom, ih, dataOf_cons, List.length_append,
      Entry.length_encode, Nat.add_assoc]

/-- One more entry puts its offset, the length of the data before it, at the end of the
index. -/
theorem indexOf_concat (es : List Entry) (e : Entry) :
    indexOf (es ++ [e]) = indexOf es ++ Bytes.ofNatLE offsetSize (dataOf es).length := by
  simp [indexOf, offsetsFrom_append, offsetsFrom]

/-- A number written in `w` bytes is written as its remainder modulo `256 ^ w`. -/
theorem Bytes.ofNatLE_mod (w n : Nat) : Bytes.ofNatLE w (n % 256 ^ w) = Bytes.ofNatLE w n := by
  induction w generalizing n with
  | zero => rfl
  | succ w ih =>
    rw [Bytes.ofNatLE, Bytes.ofNatLE, Nat.pow_succ', Nat.mod_mul_right_mod,
      Nat.mod_mul_right_div_self, ih]

/-- Slot `p` of the index is the offset of entry `p`. -/
theorem indexOf_slot {es : List Entry} {p : Nat} (hp : p < es.length) :
    ((indexOf es).drop (p * offsetSize)).take offsetSize =
      Bytes.ofNatLE offsetSize (dataOf (es.take p)).length := by
  have widths : ∀ x ∈ (offsetsFrom 0 es).map (Bytes.ofNatLE offsetSize), x.length = offsetSize := by
    intro x hx
    obtain ⟨o, -, rfl⟩ := List.mem_map.1 hx
    simp
  have slot := getElem?_offsetsFrom 0 es hp
  rw [Nat.zero_add] at slot
  rw [indexOf, drop_flatten_of_width widths, ← List.map_drop,
    List.drop_eq_getElem_cons (by rw [length_offsetsFrom]; exact hp)]
  rw [List.getElem?_eq_some_iff] at slot
  obtain ⟨_, slot⟩ := slot
  simp [slot]

/-- The length word at the front of an entry's encoding. -/
theorem Entry.take_encode_append (e : Entry) (rest : Bytes) :
    (e.encode ++ rest).take 4 = Bytes.ofNatLE 4 e.key.length := by
  simp [Entry.encode, List.append_assoc, List.take_left']

/-- The key right after it. -/
theorem Entry.key_of_encode_append (e : Entry) (rest : Bytes) :
    ((e.encode ++ rest).drop 4).take e.key.length = e.key := by
  simp [Entry.encode, List.append_assoc, List.drop_left', List.take_left']

/-! ## Reading through an open file -/

/-- A read inside a file that holds `bs` gives those bytes. -/
theorem Source.readAt_eq {v : Volume} {s : Source} {i : Nat} {bs : Bytes} (hi : s.inode = some i)
    (hc : v.contents i = bs) (hl : s.length = bs.length) (off len : Nat) (fits : off + len ≤ bs.length) :
    s.readAt v off len = .ok ((bs.drop off).take len) := by
  have inside : ¬ s.length < off + len := by omega
  unfold Source.readAt
  rw [if_neg inside]
  by_cases empty : len = 0
  · subst empty
    simp
  · rw [if_neg empty, hi]
    dsimp only
    have whole : ((bs.drop off).take len).length = len := by simp; omega
    rw [hc, if_pos whole]

variable {v : Volume} {t : Table} {es : List Entry}

theorem Holds.entryCount (h : Holds v t es) : t.entryCount = es.length := by
  simp [Table.entryCount, h.indexLength, length_indexOf, offsetSize]

/-- Offsets stay below the length of the data file. -/
theorem length_dataOf_take_le (es : List Entry) (p : Nat) :
    (dataOf (es.take p)).length ≤ (dataOf es).length := by
  conv => rhs; rw [← List.take_append_drop p es, dataOf_append]
  simp

theorem Holds.offset (h : Holds v t es) {p : Nat} (hp : p < es.length) :
    t.offset v p = .ok (dataOf (es.take p)).length := by
  obtain ⟨i, hi, hc⟩ := h.index
  have fits : p * offsetSize + offsetSize ≤ (indexOf es).length := by
    rw [length_indexOf]
    have : p + 1 ≤ es.length := hp
    simp only [offsetSize] at *
    omega
  have word : (dataOf (es.take p)).length < 2 ^ 64 :=
    Nat.lt_of_le_of_lt (length_dataOf_take_le es p) h.storable.small
  simp only [Table.offset, Source.readAt_eq hi hc h.indexLength _ _ fits, indexOf_slot hp]
  show Except.ok (Bytes.toNatLE (Bytes.ofNatLE offsetSize _)) = _
  rw [Bytes.toNatLE_ofNatLE, Nat.mod_eq_of_lt (by simpa [offsetSize] using word)]

theorem Holds.keyAt (h : Holds v t es) {p : Nat} (hp : p < es.length) :
    t.keyAt v p = .ok es[p].key := by
  obtain ⟨i, hi, hc⟩ := h.data
  have split := dataOf_split hp
  have atEntry : (dataOf es).drop (dataOf (es.take p)).length = es[p].encode ++ dataOf (es.drop (p + 1)) := by
    rw [split, List.drop_left]
  have atKey : (dataOf es).drop ((dataOf (es.take p)).length + 4) =
      (es[p].encode ++ dataOf (es.drop (p + 1))).drop 4 := by
    rw [← atEntry, List.drop_drop]
  have lenAt : (dataOf es).length =
      (dataOf (es.take p)).length + (es[p].encodedLen + (dataOf (es.drop (p + 1))).length) := by
    rw [split]
    simp
  have keyLen : es[p].key.length < 2 ^ 32 := h.storable.keys _ (List.getElem_mem hp)
  have encLen : 8 + es[p].key.length ≤ es[p].encodedLen := by simp [Entry.encodedLen]
  -- the length word, then the key it announces
  simp only [Table.keyAt, h.offset hp, Bind.bind, Except.bind]
  rw [Source.readAt_eq hi hc h.dataLength _ 4 (by omega)]
  dsimp only
  rw [atEntry, Entry.take_encode_append, Bytes.toNatLE_ofNatLE, Nat.mod_eq_of_lt (by simpa using keyLen),
    Source.readAt_eq hi hc h.dataLength _ _ (by omega), atKey, Entry.key_of_encode_append]

theorem Holds.entryAt (h : Holds v t es) {p : Nat} (hp : p < es.length) :
    t.entryAt v p = .ok es[p] := by
  obtain ⟨i, hi, hc⟩ := h.data
  have split := dataOf_split hp
  have lenAt : (dataOf es).length =
      (dataOf (es.take p)).length + (es[p].encodedLen + (dataOf (es.drop (p + 1))).length) := by
    rw [split]
    simp
  have bytes : ((dataOf es).drop (dataOf (es.take p)).length).take es[p].encodedLen = es[p].encode := by
    rw [split, List.drop_left, List.take_left' (Entry.length_encode _)]
  have decodes : Entry.decode es[p].encode = (.ok es[p], []) := by
    have := Entry.decode_encode_append es[p] [] (h.storable.keys _ (List.getElem_mem hp))
      (h.storable.values _ (List.getElem_mem hp))
    rwa [List.append_nil] at this
  have ordered : ¬ ((dataOf (es.take p)).length + es[p].encodedLen < (dataOf (es.take p)).length) := by
    omega
  -- the entry ends where the next one starts, or at the end of the file
  have nextAt : (dataOf (es.take (p + 1))).length = (dataOf (es.take p)).length + es[p].encodedLen := by
    rw [List.take_add_one, List.getElem?_eq_getElem hp, Option.toList_some, dataOf_append, dataOf_cons,
      dataOf_nil, List.append_nil, List.length_append, Entry.length_encode]
  have endAt : ¬ p + 1 < es.length →
      (dataOf es).length = (dataOf (es.take p)).length + es[p].encodedLen := by
    intro last
    rw [lenAt, List.drop_eq_nil_of_le (by omega), dataOf_nil, List.length_nil, Nat.add_zero]
  simp only [Table.entryAt, h.offset hp, Bind.bind, Except.bind, h.entryCount]
  split
  on_goal 1 =>
    rw [h.offset ‹_›, nextAt]
    dsimp only
  on_goal 2 =>
    rw [h.dataLength, endAt ‹_›]
    dsimp only [pure, Except.pure]
  all_goals
    rw [if_neg ordered, Nat.add_sub_cancel_left, Source.readAt_eq hi hc h.dataLength _ _ (by omega), bytes]
    simp only [decodes]
    rfl

/-! ## Looking up a key -/

/-- The binary search ends between the keys below the one asked for and those that are not. -/
theorem Holds.searchFrom (h : Holds v t es) (key : Bytes) (lo hi : Nat) (order : lo ≤ hi)
    (bounded : hi ≤ es.length) (low : ∀ j e, j < lo → es[j]? = some e → e.key < key)
    (high : ∀ j e, hi ≤ j → es[j]? = some e → ¬ e.key < key) :
    ∃ p, t.searchFrom v key lo hi = .ok p ∧ lo ≤ p ∧ p ≤ hi ∧
      (∀ j e, j < p → es[j]? = some e → e.key < key) ∧
      (∀ j e, p ≤ j → es[j]? = some e → ¬ e.key < key) := by
  induction width : hi - lo using Nat.strongRecOn generalizing lo hi with
  | ind d ih =>
    rw [Table.searchFrom]
    by_cases inside : lo < hi
    · rw [dif_pos inside]
      have mid : lo + (hi - lo) / 2 < es.length := by omega
      simp only [Bind.bind, Except.bind, h.keyAt mid]
      by_cases below : es[lo + (hi - lo) / 2].key < key
      · -- the middle key is below: every key up to it is
        rw [if_pos below]
        obtain ⟨p, eq, ge, le, pLow, pHigh⟩ := ih (hi - (lo + (hi - lo) / 2 + 1)) (by omega)
          (lo + (hi - lo) / 2 + 1) hi (by omega) bounded
          (by
            intro j e hj he
            by_cases old : j < lo
            · exact low j e old he
            · have hjl : j < es.length := (List.getElem?_eq_some_iff.1 he).1
              rw [List.getElem?_eq_getElem hjl, Option.some.injEq] at he
              subst he
              rcases Nat.lt_or_eq_of_le (show j ≤ lo + (hi - lo) / 2 by omega) with lt | eq
              · exact key_lt_trans (List.pairwise_iff_getElem.1 h.storable.sorted j _ hjl mid lt) below
              · simpa [eq] using below)
          high rfl
        exact ⟨p, eq, by omega, le, pLow, pHigh⟩
      · -- the middle key is not below: no key from it on is
        rw [if_neg below]
        obtain ⟨p, eq, ge, le, pLow, pHigh⟩ := ih (lo + (hi - lo) / 2 - lo) (by omega)
          lo (lo + (hi - lo) / 2) (by omega) (by omega) low
          (by
            intro j e hj he
            have hjl : j < es.length := (List.getElem?_eq_some_iff.1 he).1
            rw [List.getElem?_eq_getElem hjl, Option.some.injEq] at he
            subst he
            rcases Nat.lt_or_eq_of_le hj with lt | eq
            · exact fun ej => below (key_lt_trans
                (List.pairwise_iff_getElem.1 h.storable.sorted _ j mid hjl lt) ej)
            · simpa [← eq] using below)
          rfl
        exact ⟨p, eq, ge, by omega, pLow, pHigh⟩
    · rw [dif_neg inside]
      exact ⟨lo, rfl, Nat.le_refl _, order, low, by
        intro j e hj he
        exact high j e (by omega) he⟩

theorem Holds.lowerBound (h : Holds v t es) (key : Bytes) :
    ∃ p, t.lowerBound v key = .ok p ∧ p ≤ es.length ∧
      (∀ j e, j < p → es[j]? = some e → e.key < key) ∧
      (∀ j e, p ≤ j → es[j]? = some e → ¬ e.key < key) := by
  obtain ⟨p, eq, -, le, low, high⟩ := h.searchFrom key 0 es.length (Nat.zero_le _) (Nat.le_refl _)
    (fun _ _ hj => absurd hj (Nat.not_lt_zero _))
    (fun j e hj he => absurd (List.getElem?_eq_some_iff.1 he).1 (by omega))
  rw [Table.lowerBound, h.entryCount]
  exact ⟨p, eq, le, low, high⟩

/-- A lookup answers as the run the table holds does. -/
theorem Holds.get? (h : Holds v t es) (key : Bytes) : t.get? v key = .ok (entryOf es key) := by
  obtain ⟨p, eq, le, low, high⟩ := h.lowerBound key
  have notBefore : ∀ j e, j < p → es[j]? = some e → e.key ≠ key :=
    fun j e hj he same => key_lt_irrefl key (same ▸ low j e hj he)
  simp only [Table.get?, Bind.bind, Except.bind, eq, h.entryCount]
  by_cases last : p = es.length
  · -- every key is below the one asked for
    rw [if_pos last]
    apply congrArg Except.ok
    symm
    rw [entryOf_eq_none_iff]
    intro e he same
    obtain ⟨j, hj, rfl⟩ := List.getElem_of_mem he
    exact notBefore j _ (by omega) (List.getElem?_eq_getElem hj) same
  · rw [if_neg last, h.entryAt (by omega)]
    have hp : p < es.length := by omega
    -- the entries before `p` do not hold the key
    have before : entryOf (es.take p) key = none := by
      rw [entryOf_eq_none_iff]
      intro e he same
      obtain ⟨j, hj, hget⟩ := List.getElem_of_mem he
      rw [List.length_take] at hj
      rw [List.getElem_take] at hget
      exact notBefore j e (by omega) (by rw [List.getElem?_eq_getElem (by omega), hget]) same
    have split : entryOf es key = entryOf (es[p] :: es.drop (p + 1)) key := by
      conv => lhs; rw [← List.take_append_drop p es, List.drop_eq_getElem_cons hp]
      simp only [entryOf, List.find?_append]
      rw [show (es.take p).find? (·.key == key) = none from before]
      rfl
    rw [split, entryOf_cons]
    show Except.ok (if es[p].key = key then some es[p] else none) = _
    by_cases found : es[p].key = key
    · simp [found]
    · -- the key at `p` is above, and so is every later one
      rw [if_neg found, if_neg found]
      symm
      apply congrArg Except.ok
      rw [entryOf_eq_none_iff]
      intro e he same
      have above : key < es[p].key := by
        rcases Std.lt_trichotomy es[p].key key with lt | eq | gt
        · exact absurd lt (high p _ (Nat.le_refl _) (List.getElem?_eq_getElem hp))
        · exact absurd eq found
        · exact gt
      have sorted := (List.drop_eq_getElem_cons hp ▸ (h.storable.sorted.sublist (List.drop_sublist p es)))
      have beyond : key < e.key := key_lt_trans above (Ascending.head_lt sorted e he)
      rw [same] at beyond
      exact key_lt_irrefl key beyond

/-! ## Scanning -/

namespace Cursor

variable {c : Cursor} {e : Entry} {f : StoreError}

theorem next_of_done (done : ¬ c.pos < c.stop) : c.next v = (none, c) := by
  simp [next, done]

theorem next_of_entry (more : c.pos < c.stop) (read : c.table.entryAt v c.pos = .ok e) :
    c.next v = (some (.ok e), { c with pos := c.pos + 1 }) := by
  simp [next, more, read]

theorem next_of_fault (more : c.pos < c.stop) (read : c.table.entryAt v c.pos = .error f) :
    c.next v = (some (.error f), { c with pos := c.stop }) := by
  simp [next, more, read]

end Cursor

/-- A scan over positions `[pos, stop)` yields those entries, through any stream that reads the
cursor and counts at least what it has left. -/
theorem Holds.yields {σ : Type} (h : Holds v t es) (S : Stream σ StoreError) (wrap : Cursor → σ)
    (pull : ∀ c, S.pull (wrap c) = ((c.next v).1, wrap (c.next v).2))
    (size : ∀ c, c.remaining ≤ S.size (wrap c)) (pos stop : Nat) (bounded : stop ≤ es.length) :
    S.Yields (wrap ⟨t, pos, stop⟩) ((es.drop pos).take (stop - pos)) := by
  induction width : stop - pos generalizing pos with
  | zero =>
    have ends : (⟨t, pos, stop⟩ : Cursor).next v = (none, ⟨t, pos, stop⟩) :=
      Cursor.next_of_done (by dsimp only; omega)
    rw [List.take_zero]
    exact .nil (by rw [pull, ends])
  | succ n ih =>
    have hp : pos < es.length := by omega
    have step : (⟨t, pos, stop⟩ : Cursor).next v = (some (.ok es[pos]), ⟨t, pos + 1, stop⟩) :=
      Cursor.next_of_entry (by dsimp only; omega) (h.entryAt hp)
    rw [List.drop_eq_getElem_cons hp, List.take_succ_cons]
    refine .cons (by rw [pull, step]) (ih (pos + 1) (by omega)) ?_
    have := size ⟨t, pos, stop⟩
    simp only [Cursor.remaining] at this
    simp only [List.length_take, List.length_drop]
    omega

/-- An empty range holds no key. -/
theorem inRange_eq_false_of_emptyRange {lower upper : Option Bytes}
    (empty : emptyRange lower upper = true) (key : Bytes) : inRange lower upper key = false := by
  match lower, upper, empty with
  | some l, some u, empty =>
    simp only [emptyRange, decide_eq_true_eq] at empty
    simp only [inRange, Bool.and_eq_false_iff, decide_eq_false_iff_not]
    by_cases above : l ≤ key
    · exact .inr fun below => key_lt_irrefl u (List.lt_of_le_of_lt empty (List.lt_of_le_of_lt above below))
    · exact .inl above

/-- A run restricted to the entries of a block of positions `[a, b)` is that block. -/
theorem filter_eq_slice {P : Entry → Bool} {es : List Entry} {a b : Nat}
    (before : ∀ j e, j < a → es[j]? = some e → P e = false)
    (between : ∀ j e, a ≤ j → j < b → es[j]? = some e → P e = true)
    (after : ∀ j e, b ≤ j → es[j]? = some e → P e = false) :
    es.filter P = (es.drop a).take (b - a) := by
  have front : (es.take a).filter P = [] := by
    rw [List.filter_eq_nil_iff]
    intro e he
    obtain ⟨j, hj⟩ := List.mem_iff_getElem?.1 he
    rw [List.getElem?_take] at hj
    split at hj
    · simp [before j e ‹_› hj]
    · simp at hj
  have middle : ((es.drop a).take (b - a)).filter P = (es.drop a).take (b - a) := by
    rw [List.filter_eq_self]
    intro e he
    obtain ⟨j, hj⟩ := List.mem_iff_getElem?.1 he
    rw [List.getElem?_take, List.getElem?_drop] at hj
    split at hj
    · exact between (a + j) e (by omega) (by omega) hj
    · simp at hj
  have back : ((es.drop a).drop (b - a)).filter P = [] := by
    rw [List.filter_eq_nil_iff]
    intro e he
    obtain ⟨j, hj⟩ := List.mem_iff_getElem?.1 he
    rw [List.getElem?_drop, List.getElem?_drop] at hj
    simp [after _ e (by omega) hj]
  calc es.filter P = (es.take a ++ ((es.drop a).take (b - a) ++ (es.drop a).drop (b - a))).filter P := by
        rw [List.take_append_drop, List.take_append_drop]
    _ = (es.drop a).take (b - a) := by
        rw [List.filter_append, List.filter_append, front, middle, back, List.nil_append, List.append_nil]

/-- Where a scan over `[lower, upper)` starts: the first position not below the lower bound. -/
theorem Holds.start (h : Holds v t es) (lower : Option Bytes) :
    ∃ p, (match lower with | some k => t.lowerBound v k | none => pure 0) = .ok p ∧ p ≤ es.length ∧
      (∀ j e, j < p → es[j]? = some e → ¬ inRange lower none e.key) ∧
      (∀ j e, p ≤ j → es[j]? = some e → inRange lower none e.key) := by
  cases lower with
  | none => exact ⟨0, rfl, Nat.zero_le _, fun _ _ hj => absurd hj (Nat.not_lt_zero _), by simp [inRange]⟩
  | some k =>
    obtain ⟨p, eq, le, low, high⟩ := h.lowerBound k
    refine ⟨p, eq, le, fun j e hj he => ?_, fun j e hj he => ?_⟩
    · simpa [inRange, List.not_le] using low j e hj he
    · simpa [inRange, List.not_lt] using high j e hj he

/-- Where a scan over `[lower, upper)` stops: the first position not below the upper bound. -/
theorem Holds.stop (h : Holds v t es) (upper : Option Bytes) :
    ∃ p, (match upper with | some k => t.lowerBound v k | none => pure t.entryCount) = .ok p ∧
      p ≤ es.length ∧
      (∀ j e, j < p → es[j]? = some e → inRange none upper e.key) ∧
      (∀ j e, p ≤ j → es[j]? = some e → ¬ inRange none upper e.key) := by
  cases upper with
  | none =>
    refine ⟨es.length, by rw [h.entryCount]; rfl, Nat.le_refl _, by simp [inRange], ?_⟩
    intro j e hj he
    exact absurd (List.getElem?_eq_some_iff.1 he).1 (by omega)
  | some k =>
    obtain ⟨p, eq, le, low, high⟩ := h.lowerBound k
    exact ⟨p, eq, le, fun j e hj he => by simpa [inRange] using low j e hj he,
      fun j e hj he => by simpa [inRange] using high j e hj he⟩

theorem inRange_eq_and (lower upper : Option Bytes) (key : Bytes) :
    inRange lower upper key = (inRange lower none key && inRange none upper key) := by
  cases lower <;> cases upper <;> simp [inRange]

/-- The positions a scan over a key range reads hold exactly the entries in the range. -/
theorem Holds.cursor (h : Holds v t es) (lower upper : Option Bytes) :
    ∃ pos stop, t.cursor v lower upper = .ok ⟨t, pos, stop⟩ ∧ stop ≤ es.length ∧
      (es.drop pos).take (stop - pos) = es.filter (inRange lower upper ·.key) := by
  by_cases empty : emptyRange lower upper = true
  · refine ⟨0, 0, by simp [Table.cursor, empty]; rfl, Nat.zero_le _, ?_⟩
    simp [inRange_eq_false_of_emptyRange empty]
  · obtain ⟨a, startAt, -, before, fromA⟩ := h.start lower
    obtain ⟨b, stopAt, bLe, toB, after⟩ := h.stop upper
    refine ⟨a, b, ?_, bLe, ?_⟩
    · rw [Table.cursor, if_neg empty]
      cases lower <;> cases upper <;> dsimp only at startAt stopAt ⊢ <;>
        simp only [startAt, stopAt, Bind.bind, Except.bind] <;> rfl
    · symm
      apply filter_eq_slice
      · intro j e hj he
        rw [inRange_eq_and]
        simp [before j e hj he]
      · intro j e hj hjb he
        rw [inRange_eq_and, fromA j e hj he, toB j e hjb he]
        rfl
      · intro j e hj he
        rw [inRange_eq_and]
        simp [after j e hj he]

end Table

end LsmStore
