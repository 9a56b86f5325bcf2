import MethodScout.ClassFile.Fault
import MethodScout.Proofs.Attempts
import MethodScout.Proofs.Words

/-!
# Formats of readers

A format says which bytes stand for which value at an offset. A reader follows a format when it takes exactly the bytes
that the format allows, whatever comes after them, and gives the value that they stand for. Formats are put together
as readers are.
-/

namespace MethodScout

/-- Which bytes stand for which value, when they begin at an offset. -/
abbrev Format (α : Type) := Nat → Bytes → α → Prop

namespace Format

variable {α β : Type}

/-- Bytes of one format and then bytes of a second one, which depends on the value of the first. -/
def andThen (F : Format α) (G : α → Format β) : Format β := fun o bs b =>
  ∃ a first second, bs = first ++ second ∧ F o first a ∧ G a (o + first.length) second b

/-- Bytes of one format several times over. -/
inductive Series (F : Format α) : Nat → Bytes → List α → Prop
  | nil {o : Nat} : Series F o [] []
  | cons {o : Nat} {first second : Bytes} {a : α} {as : List α} :
      F o first a → Series F (o + first.length) second as → Series F o (first ++ second) (a :: as)

/-- What is written the same way at every offset is written one after the other in a series. -/
theorem series_written_iff {ρ : Type} {write : ρ → Bytes} {R : ρ → α → Prop} {o : Nat} {bs : Bytes} {as : List α} :
    Series (fun _ bs a => ∃ r, bs = write r ∧ R r a) o bs as ↔
      ∃ rs : List ρ, bs = rs.flatMap write ∧ List.Forall₂ R rs as := by
  refine ⟨fun h => ?_, ?_⟩
  · induction h with
    | nil => exact ⟨[], rfl, .nil⟩
    | cons ha _ ih =>
        obtain ⟨r, rfl, hr⟩ := ha
        obtain ⟨rs, rfl, hrs⟩ := ih
        exact ⟨r :: rs, rfl, .cons hr hrs⟩
  · rintro ⟨rs, rfl, h⟩
    induction h generalizing o with
    | nil => exact .nil
    | cons hr _ ih => exact .cons ⟨_, rfl, hr⟩ ih

end Format

namespace Reader

variable {ε α β : Type}

/-- The reader takes exactly what the format allows. -/
def Follows (p : Reader ε α) (F : Format α) : Prop :=
  ∀ (o : Nat) (bs : Bytes) (a : α) (o' : Nat) (rest : Bytes), p ⟨o, bs⟩ = .ok (a, ⟨o', rest⟩) ↔
    ∃ taken, bs = taken ++ rest ∧ o' = o + taken.length ∧ F o taken a

variable {p : Reader ε α} {F G : Format α}

theorem Follows.congr (h : p.Follows F) (hFG : ∀ o bs a, F o bs a ↔ G o bs a) : p.Follows G := by
  intro o bs a o' rest
  simp only [h o bs a o' rest, hFG]

theorem Follows.run (h : p.Follows F) {o : Nat} {bs : Bytes} {a : α} (ha : F o bs a) (rest : Bytes) :
    p ⟨o, bs ++ rest⟩ = .ok (a, ⟨o + bs.length, rest⟩) :=
  (h _ _ _ _ _).mpr ⟨bs, rfl, rfl, ha⟩

theorem Follows.run_eq_end (h : p.Follows F) {o : Nat} {bs : Bytes} {a : α} :
    p ⟨o, bs⟩ = .ok (a, ⟨o + bs.length, []⟩) ↔ F o bs a := by
  constructor
  · intro hp
    obtain ⟨taken, rfl, -, ha⟩ := (h _ _ _ _ _).mp hp
    rwa [List.append_nil]
  · intro ha
    simpa using h.run ha []

theorem readAll_eq_ok_iff {bs : Bytes} {a : α} : p.readAll bs = .ok a ↔ ∃ c, p ⟨0, bs⟩ = .ok (a, c) := by
  rw [readAll, Attempt.map_eq_ok]
  simp [Prod.exists]

theorem readAll_eq_error_iff {bs : Bytes} {e : ε} : p.readAll bs = .error e ↔ p ⟨0, bs⟩ = .error e :=
  Attempt.map_eq_error

theorem Follows.readAll_eq_ok (h : p.Follows F) {bs : Bytes} {a : α} :
    p.readAll bs = .ok a ↔ ∃ taken rest, bs = taken ++ rest ∧ F 0 taken a := by
  rw [readAll_eq_ok_iff]
  constructor
  · rintro ⟨c, hc⟩
    obtain ⟨taken, hbs, -, ha⟩ := (h _ _ _ _ _).mp hc
    exact ⟨taken, c.rest, hbs, ha⟩
  · rintro ⟨taken, rest, rfl, ha⟩
    exact ⟨_, h.run ha rest⟩

theorem bind_eq_ok {q : α → Reader ε β} {c : Cursor} {r : β × Cursor} :
    (p >>= q) c = .ok r ↔ ∃ a c', p c = .ok (a, c') ∧ q a c' = .ok r := by
  simp only [Bind.bind, StateT.bind, Except.bind]
  cases hc : p c with
  | error e => simp
  | ok r' => simp [Prod.ext_iff, eq_comm]

/-! ## Single steps -/

theorem follows_pure (a : α) : (pure a : Reader ε α).Follows fun _ bs b => bs = [] ∧ b = a := by
  intro o bs b o' rest
  change Except.ok (a, Cursor.mk o bs) = Except.ok (b, Cursor.mk o' rest) ↔ _
  simp only [Except.ok.injEq, Prod.mk.injEq, Cursor.mk.injEq]
  constructor
  · rintro ⟨rfl, rfl, rfl⟩
    exact ⟨[], rfl, rfl, rfl, rfl⟩
  · rintro ⟨_, rfl, rfl, rfl, rfl⟩
    exact ⟨rfl, rfl, rfl⟩

theorem follows_throw (e : ε) : (throw e : Reader ε α).Follows fun _ _ _ => False := by
  intro o bs a o' rest
  constructor
  · intro h
    cases h
  · rintro ⟨_, _, _, h⟩
    exact h.elim

theorem follows_lift (x : Except ε α) : (liftM x : Reader ε α).Follows fun _ bs a => bs = [] ∧ x = .ok a := by
  cases x with
  | error e => exact (follows_throw e).congr fun _ _ _ => by simp
  | ok b => exact (follows_pure b).congr fun _ _ _ => by simp [eq_comm]

theorem follows_position : (position : Reader ε Nat).Follows fun o bs a => bs = [] ∧ a = o := by
  intro o bs a o' rest
  simp only [position, Except.ok.injEq, Prod.mk.injEq, Cursor.mk.injEq]
  constructor
  · rintro ⟨rfl, rfl, rfl⟩
    exact ⟨[], rfl, rfl, rfl, rfl⟩
  · rintro ⟨_, rfl, rfl, rfl, rfl⟩
    exact ⟨rfl, rfl, rfl⟩

theorem follows_take (short : Shortfall → ε) (n : Nat) :
    (take short n).Follows fun _ bs a => bs.length = n ∧ a = bs := by
  intro o bs a o' rest
  constructor
  · intro h
    unfold take at h
    split at h
    · rename_i hn
      simp only [Bytes.holds_iff] at hn
      cases h
      exact ⟨bs.take n, (List.take_append_drop n bs).symm, by simp [hn], by simp [hn], rfl⟩
    · cases h
  · rintro ⟨_, rfl, rfl, rfl, rfl⟩
    simp [take]

/-! ## Steps put together -/

theorem Follows.bind {q : α → Reader ε β} {G : α → Format β} (hp : p.Follows F)
    (hq : ∀ a, (q a).Follows (G a)) : (p >>= q).Follows (F.andThen G) := by
  intro o bs b o'' rest
  constructor
  · intro h
    obtain ⟨a, ⟨o', bs'⟩, hpa, hqb⟩ := bind_eq_ok.mp h
    obtain ⟨first, rfl, rfl, ha⟩ := (hp _ _ _ _ _).mp hpa
    obtain ⟨second, rfl, rfl, hb⟩ := (hq a _ _ _ _ _).mp hqb
    refine ⟨first ++ second, (List.append_assoc _ _ _).symm, ?_, a, first, second, rfl, ha, hb⟩
    rw [List.length_append, Nat.add_assoc]
  · rintro ⟨_, rfl, rfl, a, first, second, rfl, ha, hb⟩
    rw [List.append_assoc, List.length_append, ← Nat.add_assoc]
    exact bind_eq_ok.mpr ⟨a, _, hp.run ha _, (hq a).run hb rest⟩

theorem Follows.map (h : p.Follows F) (f : α → β) :
    (p >>= fun a => pure (f a)).Follows fun o bs b => ∃ a, F o bs a ∧ b = f a := by
  refine (h.bind fun a => follows_pure (f a)).congr fun o bs b => ⟨?_, ?_⟩
  · rintro ⟨a, _, _, rfl, ha, rfl, rfl⟩
    exact ⟨a, by rwa [List.append_nil], rfl⟩
  · rintro ⟨a, ha, rfl⟩
    exact ⟨a, bs, [], (List.append_nil bs).symm, ha, rfl, rfl⟩

/-- A fault in front of a step leaves of its format what passes the check. -/
theorem Follows.unless {c : Prop} [Decidable c] {e : ε} {k : Unit → Reader ε α} (h : (k ()).Follows F) :
    (if c then throw e >>= k else k ()).Follows fun o bs a => ¬c ∧ F o bs a := by
  by_cases hc : c
  · simp only [hc, ↓reduceIte]
    exact (follows_throw (α := α) e).congr fun _ _ _ => by simp
  · simp only [hc, ↓reduceIte]
    exact h.congr fun _ _ _ => by simp

theorem Follows.ite {c : Prop} [Decidable c] {q : Reader ε α} (hp : p.Follows F) (hq : q.Follows G) :
    (if c then p else q).Follows fun o bs a => if c then F o bs a else G o bs a := by
  by_cases hc : c
  · simpa only [hc, ↓reduceIte] using hp
  · simpa only [hc, ↓reduceIte] using hq

theorem times_succ (n : Nat) (p : Reader ε α) :
    Reader.times (n + 1) p = p >>= fun a => Reader.times n p >>= fun as => pure (a :: as) := by
  simp only [Reader.times, List.replicate_succ, List.mapM_cons]

theorem Follows.times (h : p.Follows F) (n : Nat) :
    (Reader.times n p).Follows fun o bs as => as.length = n ∧ Format.Series F o bs as := by
  induction n with
  | zero =>
      refine (follows_pure ([] : List α)).congr fun o bs as => ?_
      constructor
      · rintro ⟨rfl, rfl⟩
        exact ⟨rfl, .nil⟩
      · rintro ⟨hlen, hs⟩
        cases hs with
        | nil => exact ⟨rfl, rfl⟩
        | cons _ _ => simp at hlen
  | succ n ih =>
      rw [times_succ]
      refine (h.bind fun a => ih.bind fun as => follows_pure (a :: as)).congr fun o bs as => ?_
      constructor
      · rintro ⟨a, first, _, rfl, ha, as, second, _, rfl, ⟨hlen, hs⟩, rfl, rfl⟩
        exact ⟨by simp [hlen], by simpa using .cons ha hs⟩
      · rintro ⟨hlen, hs⟩
        cases hs with
        | nil => simp at hlen
        | @cons _ first second a as ha hs =>
            exact ⟨a, first, second, rfl, ha, as, second, [], by simp, ⟨by simpa using hlen, hs⟩, rfl, rfl⟩

end Reader

/-! ## Words of class files -/

namespace Decoder

open Reader

theorem follows_bytes (n : Nat) : (bytes n).Follows fun _ bs a => bs.length = n ∧ a = bs :=
  follows_take _ n

theorem follows_skip (n : Nat) : (skip n).Follows fun _ bs _ => bs.length = n :=
  ((follows_bytes n).map fun _ => ()).congr fun _ _ _ => by simp

theorem follows_skipped {α : Type} (n : Nat) (a : α) :
    (do skip n; return a : Decoder α).Follows fun _ bs b => bs.length = n ∧ b = a :=
  ((follows_skip n).map fun _ => a).congr fun _ _ _ => by simp

theorem follows_number (n : Nat) : (number n).Follows fun _ bs a => a < 256 ^ n ∧ bs = Bytes.word n a := by
  refine ((follows_bytes n).map Bytes.bigEndian).congr fun o bs a => ?_
  rw [← Bytes.bigEndian_eq_iff]
  simp

theorem follows_u8 : u8.Follows fun _ bs a => ∃ n : UInt8, a = n.toNat ∧ bs = [n] := by
  refine (follows_number 1).congr fun o bs a => ?_
  constructor
  · rintro ⟨ha, rfl⟩
    exact ⟨UInt8.ofNat a, by simp at ha ⊢; omega, rfl⟩
  · rintro ⟨n, rfl, rfl⟩
    exact ⟨n.toNat_lt, by simp [Bytes.word]⟩

theorem follows_u16 : u16.Follows fun _ bs a => ∃ n : UInt16, a = n.toNat ∧ bs = Bytes.word 2 n.toNat := by
  refine (follows_number 2).congr fun o bs a => ?_
  constructor
  · rintro ⟨ha, rfl⟩
    exact ⟨UInt16.ofNatLT a ha, rfl, rfl⟩
  · rintro ⟨n, rfl, rfl⟩
    exact ⟨n.toNat_lt, rfl⟩

theorem follows_u32 : u32.Follows fun _ bs a => a < 256 ^ 4 ∧ bs = Bytes.word 4 a :=
  follows_number 4

/-- An index, what it leads to, and then a step that uses that. -/
theorem follows_indexed {α β : Type} {f : Nat → Except DecodeFault α} {k : α → Decoder β} {G : α → Format β}
    (hk : ∀ a, (k a).Follows (G a)) :
    (do k (← f (← u16)) : Decoder β).Follows fun o bs b => ∃ (index : UInt16) (a : α) (rest : Bytes),
      bs = Bytes.word 2 index.toNat ++ rest ∧ f index.toNat = .ok a ∧ G a (o + 2) rest b := by
  refine (follows_u16.bind fun n => (follows_lift (f n)).bind hk).congr fun o bs b => ⟨?_, ?_⟩
  · rintro ⟨_, _, _, rfl, ⟨index, rfl, rfl⟩, a, _, rest, rfl, ⟨rfl, ha⟩, hb⟩
    exact ⟨index, a, rest, rfl, ha, by simpa using hb⟩
  · rintro ⟨index, a, rest, rfl, ha, hb⟩
    exact ⟨index.toNat, _, rest, rfl, ⟨index, rfl, rfl⟩, a, [], rest, rfl, ⟨rfl, ha⟩, by simpa using hb⟩

/-- A count, as many values as it says, and then a step that uses them. -/
theorem follows_counted {α β ρ : Type} {p : Decoder α} {k : List α → Decoder β} {write : ρ → Bytes}
    {R : ρ → α → Prop} {G : List α → Format β} (hp : p.Follows fun _ bs a => ∃ r, bs = write r ∧ R r a)
    (hk : ∀ as, (k as).Follows (G as)) :
    (do k (← Reader.times (← u16) p) : Decoder β).Follows fun o bs b => ∃ (rs : List ρ) (as : List α) (rest : Bytes),
      rs.length < 65536 ∧ bs = Bytes.word 2 rs.length ++ (rs.flatMap write ++ rest) ∧ List.Forall₂ R rs as ∧
        G as (o + 2 + (rs.flatMap write).length) rest b := by
  refine (follows_u16.bind fun n => (hp.times n).bind hk).congr fun o bs b => ⟨?_, ?_⟩
  · rintro ⟨_, _, _, rfl, ⟨n, rfl, rfl⟩, as, _, rest, rfl, ⟨hlen, hseries⟩, hb⟩
    obtain ⟨rs, rfl, hrs⟩ := Format.series_written_iff.mp hseries
    rw [← hrs.length_eq] at hlen
    rw [Bytes.length_word] at hb
    exact ⟨rs, as, rest, hlen ▸ n.toNat_lt, by rw [hlen], hrs, hb⟩
  · rintro ⟨rs, as, rest, hfew, rfl, hrs, hb⟩
    refine ⟨rs.length, _, _, rfl, ⟨UInt16.ofNatLT _ hfew, rfl, rfl⟩, as, _, rest, rfl,
      ⟨hrs.length_eq.symm, Format.series_written_iff.mpr ⟨rs, rfl, hrs⟩⟩, ?_⟩
    rwa [Bytes.length_word]

theorem follows_i32 : i32.Follows fun _ bs a => bs.length = 4 ∧ a = signed32 bs.bigEndian := by
  refine (follows_u32.map signed32).congr fun o bs a => ⟨?_, ?_⟩
  · rintro ⟨w, hw, rfl⟩
    obtain ⟨hlen, rfl⟩ := Bytes.bigEndian_eq_iff.mpr hw
    exact ⟨hlen, rfl⟩
  · rintro ⟨hlen, rfl⟩
    exact ⟨bs.bigEndian, Bytes.bigEndian_eq_iff.mp ⟨hlen, rfl⟩, rfl⟩

end Decoder

end MethodScout
