import MethodScout.Proofs.PoolEntries

/-!
# The slots of a constant pool

A constant pool is read from a count of slots and from constants that fill them. Each constant is found at the slot that
follows those of the constants before it, and at no other.
-/

namespace MethodScout

/-- The slots that a constant takes, the second one of a long or double not usable. -/
def Constant.cells (c : Constant) : List (Option Constant) :=
  some c :: if c = .wide then [none] else []

namespace PoolEntry

theorem slots_wide {e : PoolEntry} (h : e.isWide = true) : e.slots = 2 := by
  simp [slots, h]

theorem slots_narrow {e : PoolEntry} (h : ¬e.isWide = true) : e.slots = 1 := by
  simp [slots, h]

theorem cells_wide {e : PoolEntry} (h : e.isWide = true) : e.constant.cells = [some e.constant, none] := by
  simp [Constant.cells, constant_eq_wide, h]

theorem cells_narrow {e : PoolEntry} (h : ¬e.isWide = true) : e.constant.cells = [some e.constant] := by
  simp [Constant.cells, constant_eq_wide, h]

theorem length_cells (e : PoolEntry) : e.constant.cells.length = e.slots := by
  by_cases h : e.isWide = true
  · rw [cells_wide h, slots_wide h]; rfl
  · rw [cells_narrow h, slots_narrow h]; rfl

theorem slots_pos (e : PoolEntry) : 0 < e.slots := by
  unfold slots
  split <;> decide

theorem slots_le (e : PoolEntry) : e.slots ≤ 2 := by
  unfold slots
  split <;> decide

/-- How many slots constants take. -/
def taken (es : List PoolEntry) : Nat := (es.map slots).sum

@[simp]
theorem taken_nil : taken [] = 0 := rfl

@[simp]
theorem taken_cons (e : PoolEntry) (es : List PoolEntry) : taken (e :: es) = e.slots + taken es := by
  simp [taken]

theorem taken_eq_zero {es : List PoolEntry} : taken es = 0 ↔ es = [] := by
  cases es with
  | nil => simp
  | cons e es =>
      have := e.slots_pos
      simp only [taken_cons, reduceCtorEq, iff_false]
      omega

/-- Constants fill the declared number of slots, the unused one at index 0 counted. A long or double in the last slot
takes one slot more than is declared. -/
def Fills (es : List PoolEntry) (count : Nat) : Prop :=
  taken es = count - 1 ∨ taken es = count ∧ ∃ e, es.getLast? = some e ∧ e.isWide = true

theorem two_le_taken {es : List PoolEntry} {e : PoolEntry} (h : es.getLast? = some e) (he : e.isWide = true) :
    2 ≤ taken es := by
  obtain ⟨front, rfl⟩ := List.getLast?_eq_some_iff.mp h
  simp [taken, slots, he]

theorem fills_nil_iff {es : List PoolEntry} : Fills es 1 ↔ es = [] := by
  refine ⟨?_, fun h => .inl (taken_eq_zero.mpr h)⟩
  rintro (h | ⟨h, e, hlast, he⟩)
  · exact taken_eq_zero.mp h
  · have := two_le_taken hlast he
    omega

theorem fills_zero_iff {es : List PoolEntry} : Fills es 0 ↔ es = [] := by
  refine ⟨?_, fun h => .inl (taken_eq_zero.mpr h)⟩
  rintro (h | ⟨h, _⟩)
  · exact taken_eq_zero.mp h
  · exact taken_eq_zero.mp h

theorem fills_cons_iff {e : PoolEntry} {es : List PoolEntry} {n : Nat} :
    Fills (e :: es) (n + 2) ↔ Fills es (n + 2 - e.slots) := by
  have hpos := e.slots_pos
  have hle := e.slots_le
  cases es with
  | nil =>
      simp only [Fills, taken_cons, taken_nil, List.getLast?_singleton, Option.some.injEq, exists_eq_left', slots,
        List.getLast?_nil, reduceCtorEq, false_and]
      split <;> simp_all <;> omega
  | cons e' es =>
      have hpos' := e'.slots_pos
      simp only [Fills, taken_cons, List.getLast?_cons_cons]
      refine or_congr (by omega) (and_congr_left fun ⟨e'', hlast, hwide⟩ => ?_)
      have := two_le_taken hlast hwide
      simp only [taken_cons] at this
      omega

theorem exists_fills_iff {n : Nat} {P : List PoolEntry → Prop} :
    (∃ es, Fills es (n + 2) ∧ P es) ↔ ∃ e es, Fills es (n + 2 - e.slots) ∧ P (e :: es) := by
  refine ⟨fun ⟨es, h, hP⟩ => ?_, fun ⟨e, es, h, hP⟩ => ⟨e :: es, fills_cons_iff.mpr h, hP⟩⟩
  cases es with
  | nil => simp [Fills] at h
  | cons e es => exact ⟨e, es, fills_cons_iff.mp h, hP⟩

theorem fills_last_iff {e : PoolEntry} {es : List PoolEntry} : Fills es (2 - e.slots) ↔ es = [] := by
  cases he : e.isWide with
  | true => simp [slots, he, fills_zero_iff]
  | false => simp [slots, he, fills_nil_iff]

theorem fills_iff {es : List PoolEntry} {count : Nat} : Fills es count ↔ Fills es (count - 1 + 1) := by
  cases count with
  | zero => rw [fills_zero_iff, fills_nil_iff]
  | succ n => rfl

/-- All slots that constants take, also one that is not declared. -/
def cells (es : List PoolEntry) : List (Option Constant) := es.flatMap fun e => e.constant.cells

@[simp]
theorem cells_nil : cells [] = [] := rfl

@[simp]
theorem cells_cons (e : PoolEntry) (es : List PoolEntry) : cells (e :: es) = e.constant.cells ++ cells es := rfl

end PoolEntry

namespace ConstantPool

open Reader Decoder PoolEntry

/-- The pool that constants fill. -/
def ofEntries (es : List PoolEntry) (count : Nat) : ConstantPool :=
  ⟨(none :: (cells es).take (count - 1)).toArray⟩

theorem follows_readSlots (missing : Nat) (slots : Array (Option Constant)) :
    (readSlots missing slots).Follows fun _ bs out => ∃ es : List PoolEntry, Fills es (missing + 1) ∧
      bs = es.flatMap encode ∧ out.toList = slots.toList ++ (cells es).take missing := by
  fun_induction readSlots missing slots with
  | case1 slots =>
      refine (follows_pure slots).congr fun o bs out => ⟨?_, ?_⟩
      · rintro ⟨rfl, rfl⟩
        exact ⟨[], fills_nil_iff.mpr rfl, rfl, by simp⟩
      · rintro ⟨es, hfills, rfl, hout⟩
        obtain rfl := fills_nil_iff.mp hfills
        exact ⟨rfl, by simpa [cells] using hout⟩
  | case2 slots =>
      refine ((follows_readConstant slots.size).bind fun c => follows_pure (slots.push (some c))).congr
        fun o bs out => ?_
      rw [exists_fills_iff]
      refine ⟨?_, ?_⟩
      · rintro ⟨_, _, _, rfl, ⟨e, rfl, rfl⟩, rfl, rfl⟩
        exact ⟨e, [], fills_last_iff.mpr rfl, by simp, by simp [Constant.cells]⟩
      · rintro ⟨e, es, hfills, rfl, hout⟩
        obtain rfl := fills_last_iff.mp hfills
        exact ⟨e.constant, e.encode, [], by simp, ⟨e, rfl, rfl⟩, rfl,
          Array.toList_inj.mp (by simpa [Constant.cells] using hout)⟩
  | case3 missing slots ih₁ ih₂ =>
      refine ((follows_readConstant slots.size).bind fun c => (ih₁ c).ite (ih₂ c)).congr fun o bs out => ?_
      rw [exists_fills_iff]
      refine ⟨?_, ?_⟩
      · rintro ⟨_, _, _, rfl, ⟨e, rfl, rfl⟩, h⟩
        simp only [constant_eq_wide] at h
        split at h
        · rename_i he
          obtain ⟨es, hfills, rfl, hout⟩ := h
          exact ⟨e, es, by rwa [slots_wide he], rfl, by simpa [cells_wide he] using hout⟩
        · rename_i he
          obtain ⟨es, hfills, rfl, hout⟩ := h
          exact ⟨e, es, by rwa [slots_narrow he], rfl, by simpa [cells_narrow he] using hout⟩
      · rintro ⟨e, es, hfills, rfl, hout⟩
        refine ⟨e.constant, e.encode, es.flatMap encode, rfl, ⟨e, rfl, rfl⟩, ?_⟩
        simp only [constant_eq_wide]
        split
        · rename_i he
          exact ⟨es, by rwa [slots_wide he] at hfills, rfl, by simpa [cells_wide he] using hout⟩
        · rename_i he
          exact ⟨es, by rwa [slots_narrow he] at hfills, rfl, by simpa [cells_narrow he] using hout⟩

theorem follows_read : read.Follows fun _ bs pool => ∃ (count : UInt16) (es : List PoolEntry),
    Fills es count.toNat ∧ bs = Bytes.word 2 count.toNat ++ es.flatMap encode ∧
      pool = ofEntries es count.toNat := by
  refine (follows_u16.bind fun count => (follows_readSlots (count - 1) #[none]).bind fun slots =>
    follows_pure (ConstantPool.mk slots)).congr fun o bs pool => ⟨?_, ?_⟩
  · rintro ⟨_, _, _, rfl, ⟨count, rfl, rfl⟩, slots, _, _, rfl, ⟨es, hfills, rfl, hslots⟩, rfl, rfl⟩
    refine ⟨count, es, fills_iff.mpr hfills, by simp, ?_⟩
    rw [ofEntries, ConstantPool.mk.injEq, ← Array.toList_inj, hslots]
    rfl
  · rintro ⟨count, es, hfills, rfl, rfl⟩
    exact ⟨count.toNat, _, _, rfl, ⟨count, rfl, rfl⟩, (none :: (cells es).take (count.toNat - 1)).toArray, _, [],
      by simp, ⟨es, fills_iff.mp hfills, rfl, by simp⟩, rfl, rfl⟩

/-- A pool is read in the same way wherever its bytes stand and whatever follows them. -/
theorem follows_accepted :
    read.Follows fun _ bs pool => read ⟨0, bs⟩ = .ok (pool, ⟨bs.length, []⟩) := by
  refine follows_read.congr fun o bs pool => ?_
  rw [← follows_read.run_eq_end, Nat.zero_add]

end ConstantPool

/-! ## Finding constants by their slots -/

namespace PoolEntry

/-- The first slot of the constant at a position among constants. -/
def slotOf (es : List PoolEntry) (j : Nat) : Nat := 1 + taken (es.take j)

/-- A constant is at the index that is its first slot. -/
def At (es : List PoolEntry) (index : Nat) (e : PoolEntry) : Prop :=
  ∃ j : Nat, es[j]? = some e ∧ slotOf es j = index

theorem getElem?_cells_first {es : List PoolEntry} {j : Nat} {e : PoolEntry} (h : es[j]? = some e) :
    (cells es)[taken (es.take j)]? = some (some e.constant) := by
  induction es generalizing j with
  | nil => simp at h
  | cons e' es ih =>
      cases j with
      | zero =>
          simp only [List.getElem?_cons_zero, Option.some.injEq] at h
          simp [h, Constant.cells]
      | succ j =>
          rw [List.take_succ_cons, taken_cons, cells_cons, List.getElem?_append_right (by simp [length_cells]),
            length_cells, Nat.add_sub_cancel_left]
          exact ih (by simpa using h)

theorem getElem?_cells_second {es : List PoolEntry} {j : Nat} {e : PoolEntry} (h : es[j]? = some e)
    (he : e.isWide = true) : (cells es)[taken (es.take j) + 1]? = some none := by
  induction es generalizing j with
  | nil => simp at h
  | cons e' es ih =>
      cases j with
      | zero =>
          simp only [List.getElem?_cons_zero, Option.some.injEq] at h
          simp [h, cells_wide he]
      | succ j =>
          rw [List.take_succ_cons, taken_cons, cells_cons, Nat.add_assoc,
            List.getElem?_append_right (by simp [length_cells]), length_cells, Nat.add_sub_cancel_left]
          exact ih (by simpa using h)

/-- Every slot belongs to some constant, as its first or as its second one. -/
theorem exists_entry_of_lt {es : List PoolEntry} {k : Nat} (h : k < taken es) :
    ∃ (j : Nat) (e : PoolEntry), es[j]? = some e ∧
      (k = taken (es.take j) ∨ e.isWide = true ∧ k = taken (es.take j) + 1) := by
  induction es generalizing k with
  | nil => simp at h
  | cons e es ih =>
      rw [taken_cons] at h
      by_cases hk : k < e.slots
      · refine ⟨0, e, rfl, ?_⟩
        by_cases he : e.isWide = true
        · rw [slots_wide he] at hk
          simp only [List.take_zero, taken_nil, he, true_and]
          omega
        · rw [slots_narrow he] at hk
          simp only [List.take_zero, taken_nil]
          omega
      · obtain ⟨j, e', hj, hcase⟩ := ih (show k - e.slots < taken es by omega)
        refine ⟨j + 1, e', by simpa using hj, ?_⟩
        simp only [List.take_succ_cons, taken_cons]
        rcases hcase with hk' | ⟨he, hk'⟩
        · exact .inl (by omega)
        · exact .inr ⟨he, by omega⟩

theorem Fills.taken_take_lt {es : List PoolEntry} {n j : Nat} {e : PoolEntry} (h : Fills es (n + 1))
    (hj : es[j]? = some e) : taken (es.take j) < n := by
  induction es generalizing n j with
  | nil => simp at hj
  | cons e' es ih =>
      cases n with
      | zero => simp [fills_nil_iff] at h
      | succ n =>
          cases j with
          | zero => simp
          | succ j =>
              have hpos := e'.slots_pos
              have hrest := ih (fills_iff.mp (fills_cons_iff.mp h)) (by simpa using hj)
              simp only [List.take_succ_cons, taken_cons]
              omega

theorem Fills.slotOf_lt {es : List PoolEntry} {count j : Nat} {e : PoolEntry} (h : Fills es count)
    (hj : es[j]? = some e) : slotOf es j < count := by
  have := (fills_iff.mp h).taken_take_lt hj
  unfold slotOf
  omega

theorem Fills.le_taken {es : List PoolEntry} {count : Nat} (h : Fills es count) : count - 1 ≤ taken es := by
  rcases h with h | ⟨h, _⟩ <;> omega

/-- The indices at which no constant is: the first one, the second slots, and those that are not declared. -/
theorem Fills.not_at_iff {es : List PoolEntry} {count index : Nat} (h : Fills es count) :
    (∀ e, ¬At es index e) ↔ index = 0 ∨
      (∃ (j : Nat) (e : PoolEntry), es[j]? = some e ∧ e.isWide = true ∧ index = slotOf es j + 1) ∨
        max count 1 ≤ index := by
  refine ⟨fun hnone => ?_, ?_⟩
  · by_cases hrange : index = 0 ∨ max count 1 ≤ index
    · rcases hrange with h0 | hmax
      · exact .inl h0
      · exact .inr (.inr hmax)
    · have hle := h.le_taken
      obtain ⟨j, e, hj, hk | ⟨he, hk⟩⟩ := exists_entry_of_lt (show index - 1 < taken es by omega)
      · exact absurd ⟨j, hj, by unfold slotOf; omega⟩ (hnone e)
      · exact .inr (.inl ⟨j, e, hj, he, by unfold slotOf; omega⟩)
  · rintro hcase e ⟨j, hj, rfl⟩
    rcases hcase with h0 | ⟨j', e', hj', he', hslot⟩ | hmax
    · simp [slotOf] at h0
    · have hfirst := getElem?_cells_first hj
      have hsecond := getElem?_cells_second hj' he'
      rw [show taken (es.take j) = taken (es.take j') + 1 by unfold slotOf at hslot; omega, hsecond] at hfirst
      simp at hfirst
    · have := h.slotOf_lt hj
      omega

end PoolEntry

namespace ConstantPool

open PoolEntry

theorem getElem?_ofEntries (es : List PoolEntry) (count k : Nat) :
    (ofEntries es count).slots[k + 1]? = if k < count - 1 then (cells es)[k]? else none := by
  simp [ofEntries, List.getElem?_take]

theorem get_of_at {es : List PoolEntry} {count index : Nat} {e : PoolEntry} (h : Fills es count)
    (hat : At es index e) : (ofEntries es count).get index = .ok e.constant := by
  obtain ⟨j, hj, rfl⟩ := hat
  have hlt := (fills_iff.mp h).taken_take_lt hj
  rw [get, slotOf, Nat.add_comm, getElem?_ofEntries, if_pos hlt, getElem?_cells_first hj]

theorem get_of_not_at {es : List PoolEntry} {count index : Nat} (h : Fills es count)
    (hnone : ∀ e, ¬At es index e) : (ofEntries es count).get index = .error (.badConstantIndex index) := by
  rw [get]
  rcases h.not_at_iff.mp hnone with rfl | ⟨j, e, hj, he, rfl⟩ | hmax
  · rfl
  · rw [getElem?_ofEntries, slotOf, Nat.add_comm, getElem?_cells_second hj he]
    split
    · rename_i hc
      split at hc <;> cases hc
    · rfl
  · obtain ⟨k, rfl⟩ : ∃ k, index = k + 1 := ⟨index - 1, by omega⟩
    rw [getElem?_ofEntries, if_neg (by omega)]

end ConstantPool

end MethodScout
