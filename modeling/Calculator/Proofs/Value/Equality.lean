import Calculator.Value.Key
import Mathlib.Algebra.Order.Ring.Nat

/-
  Equality of keys is equality of what they stand for. A number other than NaN
  stands for a point of one line, a whole number of units or an infinity; a key
  stands for itself, with every number in it replaced by its point. So equality
  of keys is symmetric and transitive, whatever kinds of numbers are in them.

  What is proved:
    1. `units_strictMono` — the units of a magnitude grow with its code, so no
       two magnitudes have the same.
    2. `equal_iff` — two numbers are the same if they stand for the same point.
    3. `sameKey_iff`, `sameKey_comm`, `sameKey_trans` — the same for values.
-/

namespace Calculator

/-! ## Magnitudes -/

namespace Magnitude

theorem binade_pos : 0 < binade := by decide

/-- Magnitudes that share an exponent have fewer units than those of the next. -/
theorem units_lt (a : Magnitude) : a.units < binade * 2 ^ (a.code / binade) := by
  have hfraction := Nat.mod_lt a.code binade_pos
  unfold units
  split
  · next hlow => simpa [Nat.div_eq_of_lt hlow] using hlow
  · next hhigh =>
    obtain ⟨e, he⟩ := Nat.exists_eq_add_of_lt (Nat.div_pos (Nat.le_of_not_lt hhigh) binade_pos)
    rw [he, Nat.zero_add, Nat.add_sub_cancel, Nat.shiftLeft_eq]
    calc (binade + a.code % binade) * 2 ^ e
        < (binade * 2) * 2 ^ e := Nat.mul_lt_mul_of_pos_right (by omega) (Nat.two_pow_pos e)
      _ = binade * 2 ^ (e + 1) := by rw [Nat.pow_succ', Nat.mul_assoc]

theorem le_units {a : Magnitude} {e : Nat} (h : a.code / binade = e + 1) :
    binade * 2 ^ e ≤ a.units := by
  have hhigh : ¬ a.code < binade := fun hlow => by
    rw [Nat.div_eq_of_lt hlow] at h
    cases h
  rw [units, if_neg hhigh, h, Nat.add_sub_cancel, Nat.shiftLeft_eq]
  exact Nat.mul_le_mul_right _ (Nat.le_add_right _ _)

theorem units_strictMono {a b : Magnitude} (h : a.code < b.code) : a.units < b.units := by
  rcases Nat.lt_or_eq_of_le (Nat.div_le_div_right (c := binade) (Nat.le_of_lt h)) with hlt | heq
  · obtain ⟨e, he⟩ := Nat.exists_eq_add_of_lt (Nat.lt_of_le_of_lt (Nat.zero_le _) hlt)
    rw [Nat.zero_add] at he
    calc a.units < binade * 2 ^ (a.code / binade) := units_lt a
      _ ≤ binade * 2 ^ e := Nat.mul_le_mul_left _ (Nat.pow_le_pow_right (by decide) (by omega))
      _ ≤ b.units := le_units he
  · -- the fractions differ, with the same weight
    have ha := Nat.div_add_mod a.code binade
    have hb := Nat.div_add_mod b.code binade
    rw [heq] at ha
    unfold units
    by_cases hlow : b.code < binade
    · rw [if_pos hlow, if_pos (Nat.lt_trans h hlow)]
      exact h
    · have hhigh : ¬ a.code < binade := fun halow => by
        rw [Nat.div_eq_of_lt halow] at heq
        exact absurd (Nat.div_pos (Nat.le_of_not_lt hlow) binade_pos) (by omega)
      rw [if_neg hlow, if_neg hhigh, heq, Nat.shiftLeft_eq, Nat.shiftLeft_eq]
      exact Nat.mul_lt_mul_of_pos_right (by omega) (Nat.two_pow_pos _)

theorem units_inj {a b : Magnitude} : a.units = b.units ↔ a.code = b.code := by
  constructor
  · intro h
    rcases Nat.lt_trichotomy a.code b.code with hlt | heq | hlt
    · exact absurd h (Nat.ne_of_lt (units_strictMono hlt))
    · exact heq
    · exact absurd h.symm (Nat.ne_of_lt (units_strictMono hlt))
  · intro h
    unfold units
    rw [h]

theorem units_eq_zero_iff {a : Magnitude} : a.units = 0 ↔ a.code = 0 := by
  rw [← units_zero, units_inj]
  rfl

end Magnitude

/-! ## Answers that agree -/

/-- Both answers are there, and they are the same. -/
def Agree {α : Type} (x y : Option α) : Prop := ∃ a, x = some a ∧ y = some a

section

variable {α β : Type} {x y z : Option α}

theorem agree_symm (h : Agree x y) : Agree y x := by
  obtain ⟨a, hx, hy⟩ := h
  exact ⟨a, hy, hx⟩

theorem agree_trans (hxy : Agree x y) (hyz : Agree y z) : Agree x z := by
  obtain ⟨a, hx, hy⟩ := hxy
  obtain ⟨b, hy', hz⟩ := hyz
  exact ⟨a, hx, hz.trans (hy'.symm.trans hy)⟩

theorem agree_some {a : α} : Agree (some a) y ↔ y = some a := by
  constructor
  · rintro ⟨b, hb, hy⟩
    rw [hy, Option.some.inj hb]
  · intro h
    exact ⟨a, rfl, h⟩

theorem agree_map {f : α → β} (hf : ∀ a b, f a = f b → a = b) :
    Agree (x.map f) (y.map f) ↔ Agree x y := by
  constructor
  · rintro ⟨b, hx, hy⟩
    obtain ⟨a, hxa, hfa⟩ := Option.map_eq_some_iff.mp hx
    obtain ⟨a', hya, hfa'⟩ := Option.map_eq_some_iff.mp hy
    rw [hf a' a (hfa'.trans hfa.symm)] at hya
    exact ⟨a, hxa, hya⟩
  · rintro ⟨a, rfl, rfl⟩
    exact ⟨f a, rfl, rfl⟩

/-- Lists agree if their heads and their tails do. -/
theorem agree_cons {xs ys : Option (List α)} :
    Agree (x.bind fun a => xs.map (a :: ·)) (y.bind fun a => ys.map (a :: ·)) ↔
      Agree x y ∧ Agree xs ys := by
  constructor
  · rintro ⟨as, hx, hy⟩
    obtain ⟨a, ha, hxs⟩ := Option.bind_eq_some_iff.mp hx
    obtain ⟨bs, hbs, rfl⟩ := Option.map_eq_some_iff.mp hxs
    obtain ⟨a', ha', hys⟩ := Option.bind_eq_some_iff.mp hy
    obtain ⟨bs', hbs', heq⟩ := Option.map_eq_some_iff.mp hys
    obtain ⟨rfl, rfl⟩ := List.cons.inj heq
    exact ⟨⟨a', ha, ha'⟩, bs', hbs, hbs'⟩
  · rintro ⟨⟨a, rfl, rfl⟩, as, rfl, rfl⟩
    exact ⟨a :: as, rfl, rfl⟩

end

/-! ## Numbers -/

/-- A place on the line of numbers. -/
inductive Point where
  | finite (units : Int)
  | infinite (negative : Bool)
  deriving DecidableEq

/-- The place of a number; NaN has none. -/
def Binary64.point? : Binary64 → Option Point
  | .nan => none
  | .signed negative a =>
    some (if a.isFinite then .finite (a.signedUnits negative) else .infinite negative)

def Number.point? : Number → Option Point
  | .int n => some (.finite (n.toInt * unitsPerOne))
  | .float x => x.point?

theorem signedUnits_inj {s t : Bool} {a b : Magnitude} :
    a.signedUnits s = b.signedUnits t ↔ Binary64.ordinal s a = Binary64.ordinal t b := by
  have hinj := Magnitude.units_inj (a := a) (b := b)
  have ha := Magnitude.units_eq_zero_iff (a := a)
  have hb := Magnitude.units_eq_zero_iff (a := b)
  cases s <;> cases t <;> simp only [Magnitude.signedUnits, Binary64.ordinal] <;> simp <;> omega

theorem Magnitude.code_of_infinite {a : Magnitude} (h : a.isFinite = false) :
    a.code = infinityCode :=
  Nat.le_antisymm a.code_le (Nat.le_of_not_lt (of_decide_eq_false h))

namespace Binary64

/-- Zeros share a place, and no other two numbers of different signs. -/
theorem point_eq_iff {s t : Bool} {a b : Magnitude} :
    (signed s a).point? = (signed t b).point? ↔ ordinal s a = ordinal t b := by
  have hpos : 0 < infinityCode := by decide
  have finite {a : Magnitude} (h : a.isFinite = true) : a.code < infinityCode := of_decide_eq_true h
  cases ha : a.isFinite <;> cases hb : b.isFinite
  · have hacode := Magnitude.code_of_infinite ha
    have hbcode := Magnitude.code_of_infinite hb
    cases s <;> cases t <;> simp [point?, ordinal, ha, hb] <;> omega
  · have hacode := Magnitude.code_of_infinite ha
    have hbcode := finite hb
    cases s <;> cases t <;> simp [point?, ordinal, ha, hb] <;> omega
  · have hacode := finite ha
    have hbcode := Magnitude.code_of_infinite hb
    cases s <;> cases t <;> simp [point?, ordinal, ha, hb] <;> omega
  · simp [point?, ha, hb, signedUnits_inj]

theorem equal_iff {x y : Binary64} :
    x.equal y = true ↔ Agree x.point? y.point? := by
  cases x with
  | nan => exact ⟨nofun, fun ⟨_, h, _⟩ => nomatch h⟩
  | signed s a =>
    cases y with
    | nan => exact ⟨nofun, fun ⟨_, _, h⟩ => nomatch h⟩
    | signed t b =>
      rw [equal, beq_iff_eq, ← point_eq_iff]
      exact (agree_some.trans eq_comm).symm

theorem unitsPerOne_pos : 0 < unitsPerOne := by
  rw [unitsPerOne, Nat.one_shiftLeft]
  exact Nat.two_pow_pos 1074

/-- A whole number is at the place of the integer that it is. -/
theorem toInt?_eq_some_iff {x : Binary64} {n : Int} :
    x.toInt? = some n ↔ x.point? = some (.finite (n * unitsPerOne)) := by
  have hone : (unitsPerOne : Int) ≠ 0 := Int.natCast_ne_zero.mpr (Nat.ne_of_gt unitsPerOne_pos)
  cases x with
  | nan => exact ⟨nofun, nofun⟩
  | signed s a =>
    cases ha : a.isFinite with
    | false => simp [toInt?, units?, point?, ha]
    | true =>
      simp only [toInt?, units?, point?, ha, if_true, Option.some.injEq, Point.finite.injEq]
      constructor
      · intro h
        split at h
        · next hmod =>
          rw [← Option.some.inj h]
          exact (Int.ediv_mul_cancel_of_emod_eq_zero hmod).symm
        · cases h
      · intro h
        rw [h, if_pos (Int.mul_emod_left n _), Int.mul_ediv_cancel n hone]

end Binary64

/-- Two numbers are the same if and only if they are at the same place. -/
theorem Number.equal_iff {m n : Number} :
    m.equal n = true ↔ Agree m.point? n.point? := by
  have mixed {n : Int64} {x : Binary64} : (x.toInt? == some n.toInt) = true ↔
      Agree (Number.int n).point? (Number.float x).point? := by
    rw [beq_iff_eq, Binary64.toInt?_eq_some_iff]
    exact agree_some.symm
  cases m with
  | int m =>
    cases n with
    | int n =>
      have hone : (unitsPerOne : Int) ≠ 0 :=
        Int.natCast_ne_zero.mpr (Nat.ne_of_gt Binary64.unitsPerOne_pos)
      rw [equal, beq_iff_eq]
      constructor
      · rintro rfl
        exact ⟨_, rfl, rfl⟩
      · rintro ⟨p, hm, hn⟩
        have hplace := hm.trans hn.symm
        simp only [point?, Option.some.injEq, Point.finite.injEq] at hplace
        exact Int64.toInt_inj.mp (Int.eq_of_mul_eq_mul_right hone hplace)
    | float y => exact mixed
  | float x =>
    cases n with
    | int n => exact mixed.trans ⟨agree_symm, agree_symm⟩
    | float y => exact Binary64.equal_iff

/-! ## Values -/

/-- What a value stands for as a set element or dict key. -/
inductive Key where
  | null
  | number (place : Point)
  | str (s : String)
  | tuple (parts : List Key)

namespace Value

mutual

/-- The key that a value is; lists, sets, dicts and NaN are none. -/
def key? : Value → Option Key
  | .null => some .null
  | .str s => some (.str s)
  | .tuple items => (keys? items).map .tuple
  | v => (v.number?.bind Number.point?).map .number

/-- The keys of several values, if all are keys. -/
def keys? : List Value → Option (List Key)
  | [] => some []
  | x :: xs => (key? x).bind fun k => (keys? xs).map (k :: ·)

end

theorem sameKey_of_numbers {v w : Value} {m n : Number} (hv : v.number? = some m)
    (hw : w.number? = some n) : v.sameKey w = m.equal n := by
  cases v <;> cases w <;> cases hv <;> cases hw <;> rfl

theorem key?_of_number {v : Value} {n : Number} (h : v.number? = some n) :
    v.key? = n.point?.map .number := by
  cases v <;> cases h <;> rfl

theorem sameKey_iff_of_numbers {v w : Value} {m n : Number} (hv : v.number? = some m)
    (hw : w.number? = some n) : v.sameKey w = true ↔ Agree v.key? w.key? := by
  rw [sameKey_of_numbers hv hw, key?_of_number hv, key?_of_number hw, Number.equal_iff]
  exact (agree_map fun _ _ => Key.number.inj).symm

mutual

theorem sameKey_iff (v w : Value) : v.sameKey w = true ↔ Agree v.key? w.key? := by
  cases v with
  | tuple xs =>
    cases w with
    | tuple ys =>
      rw [sameKey, sameKeys_iff xs ys, key?, key?, agree_map fun _ _ => Key.tuple.inj]
    | _ => simp [sameKey, key?, number?, int?, Agree]
  | bool _ | int _ | float _ =>
    cases w with
    | bool _ | int _ | float _ => exact sameKey_iff_of_numbers rfl rfl
    | _ => simp [sameKey, key?, number?, int?, Agree]
  | str s =>
    cases w with
    | str t =>
      simp only [sameKey, key?, agree_some, beq_iff_eq, Option.some.injEq, Key.str.injEq]
      exact eq_comm
    | _ => simp [sameKey, key?, number?, int?, agree_some]
  | null => cases w <;> simp [sameKey, key?, number?, int?, agree_some]
  | _ => simp [sameKey, key?, number?, int?, Agree]

theorem sameKeys_iff (vs ws : List Value) :
    sameKeys vs ws = true ↔ Agree (keys? vs) (keys? ws) := by
  cases vs with
  | nil => cases ws <;> simp [sameKeys, keys?, agree_some, Option.bind_eq_some_iff]
  | cons x xs =>
    cases ws with
    | nil => simp [sameKeys, keys?, Agree, Option.bind_eq_some_iff]
    | cons y ys =>
      rw [sameKeys, Bool.and_eq_true, sameKey_iff x y, sameKeys_iff xs ys, keys?, keys?, agree_cons]

end

theorem sameKey_comm (v w : Value) : v.sameKey w = w.sameKey v := by
  rw [Bool.eq_iff_iff, sameKey_iff, sameKey_iff]
  exact ⟨agree_symm, agree_symm⟩

theorem sameKey_trans {u v w : Value} (huv : u.sameKey v = true) (hvw : v.sameKey w = true) :
    u.sameKey w = true :=
  sameKey_iff u w |>.mpr (agree_trans (sameKey_iff u v |>.mp huv) (sameKey_iff v w |>.mp hvw))

/-- Equal keys are equal to the same keys. -/
theorem sameKey_congr {u v : Value} (h : u.sameKey v = true) (w : Value) :
    w.sameKey u = w.sameKey v := by
  rw [Bool.eq_iff_iff]
  exact ⟨fun hw => sameKey_trans hw h, fun hw => sameKey_trans hw (sameKey_comm v u ▸ h)⟩

end Value

end Calculator
