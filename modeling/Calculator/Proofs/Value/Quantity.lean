import Calculator.Proofs.Value.Equality
import Calculator.Proofs.Value.Merging
import Mathlib.Algebra.Order.Field.Basic
import Mathlib.Tactic.FieldSimp
import Mathlib.Tactic.NormNum

/-
  Keys as mathematics. A number denotes a quantity, which is a rational number or
  an infinity; for a binary64 number it is read off the three fields of its
  bits. Two numbers are the same key if they denote the same quantity, and with
  that equality of keys is an equivalence of the values that may be keys.

  What is proved:
    1. `quantity?_eq` — the place of a number on the line of units is that of its
       quantity, so none is rounded.
    2. `key?_isSome_iff` — a value is a key if it is hashable and holds no NaN.
    3. `sameKey_quantity` — the laws of equality of keys.
-/

namespace Calculator

/-! ## Quantities -/

/-- A rational number or an infinity. -/
inductive Quantity where
  | finite (q : ℚ)
  | infinite (negative : Bool)

/-- What 64 bits denote: a sign, eleven exponent bits and 52 fraction bits. -/
def Quantity.ofBits? (bits : UInt64) : Option Quantity :=
  let negative : Bool := bits.toNat / 2 ^ 63 = 1
  let exponent : ℕ := bits.toNat / 2 ^ 52 % 2 ^ 11
  let fraction : ℕ := bits.toNat % 2 ^ 52
  let sign : ℚ := if negative then -1 else 1
  if exponent = 2047 then if fraction = 0 then some (.infinite negative) else none
  else if exponent = 0 then some (.finite (sign * (fraction * 2 ^ (-1074 : ℤ))))
  else some (.finite (sign * ((2 ^ 52 + fraction) * 2 ^ ((exponent : ℤ) - 1075))))

/-- What a number denotes. NaN and the values that are no numbers denote nothing. -/
def Value.quantity? : Value → Option Quantity
  | .bool b => some (.finite (if b then 1 else 0))
  | .int n => some (.finite n.toInt)
  | .float x => Quantity.ofBits? x.toBits
  | _ => none

/-- The quantity at a place of the line, which counts units of 2^-1074. -/
def Point.quantity : Point → Quantity
  | .finite u => .finite (u * 2 ^ (-1074 : ℤ))
  | .infinite negative => .infinite negative

theorem quantity_inj {p q : Point} (h : p.quantity = q.quantity) : p = q := by
  cases p with
  | finite u =>
    cases q with
    | finite v =>
      have hscale : (2 : ℚ) ^ (-1074 : ℤ) ≠ 0 := zpow_ne_zero _ two_ne_zero
      have heq := mul_right_cancel₀ hscale (Quantity.finite.inj h)
      rw [Int.cast_inj.mp heq]
    | infinite t => cases h
  | infinite s =>
    cases q with
    | finite v => cases h
    | infinite t => rw [Quantity.infinite.inj h]

/-! ## The fields of the bits -/

theorem toNat_toBits (s : Bool) (a : Magnitude) :
    (Binary64.signed s a).toBits.toNat = (if s then 2 ^ 63 else 0) + a.code := by
  have hle : a.code ≤ 2047 * 4503599627370496 := a.code_le
  rw [Binary64.toBits, UInt64.toNat_ofNat_of_lt']
  · rfl
  · cases s <;> simp [Binary64.signBit, UInt64.size] <;> omega

/-- A magnitude in units is its significand, moved by its exponent. -/
theorem units_mul_scale (a : Magnitude) :
    (a.units : ℚ) * 2 ^ (-1074 : ℤ) =
      if a.code / 2 ^ 52 = 0 then ((a.code % 2 ^ 52 : ℕ) : ℚ) * 2 ^ (-1074 : ℤ)
      else (2 ^ 52 + ((a.code % 2 ^ 52 : ℕ) : ℚ)) * 2 ^ (((a.code / 2 ^ 52 : ℕ) : ℤ) - 1075) := by
  have hbinade : binade = 2 ^ 52 := rfl
  rw [Magnitude.units, hbinade]
  split
  · next hlow => rw [if_pos (Nat.div_eq_of_lt hlow), Nat.mod_eq_of_lt hlow]
  · next hhigh =>
    obtain ⟨e, he⟩ := Nat.exists_eq_add_of_lt
      (Nat.div_pos (Nat.le_of_not_lt hhigh) (Nat.two_pow_pos 52))
    rw [Nat.zero_add] at he
    have hexponent : (((e + 1 : ℕ) : ℤ) - 1075) = (e : ℤ) + -1074 := by omega
    rw [he, if_neg (Nat.succ_ne_zero e), Nat.add_sub_cancel, Nat.shiftLeft_eq, hexponent,
      zpow_add₀ two_ne_zero, zpow_natCast, ← mul_assoc]
    norm_cast

theorem ofBits?_signed (s : Bool) (a : Magnitude) :
    Quantity.ofBits? (Binary64.signed s a).toBits =
      (Binary64.signed s a).point?.map Point.quantity := by
  have hle : a.code ≤ 2047 * 4503599627370496 := a.code_le
  have hcode := toNat_toBits s a
  have hnegative : decide ((Binary64.signed s a).toBits.toNat / 2 ^ 63 = 1) = s := by
    rw [hcode]
    cases s <;> simp <;> omega
  have hexponent : (Binary64.signed s a).toBits.toNat / 2 ^ 52 % 2 ^ 11 = a.code / 2 ^ 52 := by
    rw [hcode]
    split <;> omega
  have hfraction : (Binary64.signed s a).toBits.toNat % 2 ^ 52 = a.code % 2 ^ 52 := by
    rw [hcode]
    split <;> omega
  simp only [Quantity.ofBits?, hnegative, hexponent, hfraction, Binary64.point?, Option.map_some]
  have hscale := units_mul_scale a
  cases hfinite : a.isFinite with
  | false =>
    have hinf : a.code = 2047 * 4503599627370496 := Magnitude.code_of_infinite hfinite
    simp [hinf, Point.quantity]
  | true =>
    have hlt : a.code < 2047 * 4503599627370496 := of_decide_eq_true hfinite
    have hsigned : ((a.signedUnits s : ℤ) : ℚ) = (if s = true then -1 else 1) * (a.units : ℚ) := by
      cases s <;> simp [Magnitude.signedUnits]
    rw [if_neg (by omega), if_pos rfl, Point.quantity, hsigned, mul_assoc, hscale]
    split
    · rfl
    · rfl

theorem ofBits?_toBits (x : Binary64) :
    Quantity.ofBits? x.toBits = x.point?.map Point.quantity := by
  cases x with
  | nan => simp [Binary64.toBits, Quantity.ofBits?, Binary64.point?]
  | signed s a => exact ofBits?_signed s a

theorem quantity_of_int (n : Int) :
    Quantity.finite n = (Point.finite (n * unitsPerOne)).quantity := by
  have hone : ((unitsPerOne : ℤ) : ℚ) * 2 ^ (-1074 : ℤ) = 1 := by
    rw [unitsPerOne, Nat.one_shiftLeft]
    simp only [Nat.cast_pow, Nat.cast_ofNat, Int.cast_pow, Int.cast_ofNat]
    rw [← zpow_natCast, ← zpow_add₀ two_ne_zero]
    rfl
  rw [Point.quantity, Int.cast_mul, mul_assoc, hone, mul_one]

theorem quantity?_eq (v : Value) :
    v.quantity? = (v.number?.bind Number.point?).map Point.quantity := by
  cases v with
  | bool b => cases b <;> exact congrArg some (quantity_of_int _)
  | int n => exact congrArg some (quantity_of_int n.toInt)
  | float x => exact ofBits?_toBits x
  | _ => rfl

/-! ## Keys -/

namespace Value

/-- NaN is in the value, at some depth. -/
inductive HoldsNaN : Value → Prop where
  | nan : HoldsNaN (.float .nan)
  | list {items : List Value} {x : Value} : x ∈ items → HoldsNaN x → HoldsNaN (.list items)
  | tuple {items : List Value} {x : Value} : x ∈ items → HoldsNaN x → HoldsNaN (.tuple items)
  | set {items : List Value} {x : Value} : x ∈ items → HoldsNaN x → HoldsNaN (.set items)
  | key {entries : List (Value × Value)} {e : Value × Value} :
    e ∈ entries → HoldsNaN e.1 → HoldsNaN (.dict entries)
  | value {entries : List (Value × Value)} {e : Value × Value} :
    e ∈ entries → HoldsNaN e.2 → HoldsNaN (.dict entries)

theorem holdsNaN_tuple_iff {items : List Value} :
    HoldsNaN (.tuple items) ↔ ∃ x ∈ items, HoldsNaN x := by
  constructor
  · intro h
    cases h with
    | tuple hx hnan => exact ⟨_, hx, hnan⟩
  · rintro ⟨x, hx, hnan⟩
    exact .tuple hx hnan

mutual

theorem key?_isSome_iff (v : Value) :
    v.key?.isSome = true ↔ v.unhashable? = none ∧ ¬ v.HoldsNaN := by
  cases v with
  | tuple items =>
    have hitems := keys?_isSome_iff items
    rw [key?, Option.isSome_map, hitems, unhashable?, holdsNaN_tuple_iff]
    simp only [not_exists, not_and]
  | float x =>
    cases x with
    | nan => exact ⟨nofun, fun h => absurd .nan h.2⟩
    | signed s a => exact ⟨fun _ => ⟨rfl, nofun⟩, fun _ => rfl⟩
  | null | bool _ | int _ | str _ => exact ⟨fun _ => ⟨rfl, nofun⟩, fun _ => rfl⟩
  | list _ | set _ | dict _ => exact ⟨nofun, fun h => nomatch h.1⟩

theorem keys?_isSome_iff (vs : List Value) :
    (keys? vs).isSome = true ↔ firstUnhashable? vs = none ∧ ∀ x ∈ vs, ¬ x.HoldsNaN := by
  cases vs with
  | nil => exact ⟨fun _ => ⟨rfl, nofun⟩, fun _ => rfl⟩
  | cons x xs =>
    have hx := key?_isSome_iff x
    have hxs := keys?_isSome_iff xs
    have hboth : (keys? (x :: xs)).isSome = (x.key?.isSome && (keys? xs).isSome) := by
      rw [keys?]
      cases x.key? <;> simp
    rw [hboth, Bool.and_eq_true, hx, hxs, firstUnhashable?, Option.or_eq_none_iff,
      List.forall_mem_cons]
    exact and_and_and_comm

end

theorem sameKey_self_iff (v : Value) : v.sameKey v = true ↔ v.key?.isSome = true := by
  rw [sameKey_iff, Option.isSome_iff_exists]
  constructor
  · rintro ⟨k, hk, _⟩
    exact ⟨k, hk⟩
  · rintro ⟨k, hk⟩
    exact ⟨k, hk, hk⟩

/-- A number is the same key as what denotes the same quantity. -/
theorem sameKey_of_number {v w : Value} {m : Number} (hv : v.number? = some m) :
    v.sameKey w = true ↔ Agree v.quantity? w.quantity? := by
  rw [quantity?_eq, quantity?_eq, agree_map fun _ _ => quantity_inj, hv]
  cases hw : w.number? with
  | some n => rw [sameKey_of_numbers hv hw, Number.equal_iff, Option.bind_some, Option.bind_some]
  | none =>
    rw [sameKey_iff, key?_of_number hv]
    cases w with
    | bool _ | int _ | float _ => cases hw
    | _ => simp [Agree, key?, number?, int?]

end Value

open Value

/-- Numbers are the same key if and only if they denote the same quantity. Equality
    of keys is symmetric and transitive, and reflexive exactly on the hashable values
    without NaN. -/
theorem sameKey_quantity :
    (∀ v w : Value, v.kind ∈ [Kind.bool, .int, .float] →
      (v.sameKey w = true ↔ ∃ q, v.quantity? = some q ∧ w.quantity? = some q)) ∧
    (∀ v w : Value, v.sameKey w = w.sameKey v) ∧
    (∀ u v w : Value, u.sameKey v = true → v.sameKey w = true → u.sameKey w = true) ∧
    ∀ v : Value, v.sameKey v = true ↔ v.ensureHashable = .ok () ∧ ¬ v.HoldsNaN := by
  refine ⟨fun v w hkind => ?_, sameKey_comm, fun u v w => sameKey_trans, fun v => ?_⟩
  · obtain ⟨m, hm⟩ : ∃ m, v.number? = some m := by
      cases v with
      | bool _ | int _ | float _ => exact ⟨_, rfl⟩
      | _ => simp [kind] at hkind
    exact sameKey_of_number hm
  · rw [sameKey_self_iff, key?_isSome_iff, ensureHashable_ok_iff]

/-- `2^53 + 1` is not the number that is nearest to it in binary64, and `True` is
    `1` because both are `1.0`. -/
theorem sameKey_quantity_large :
    let odd : Value := .int 9007199254740993
    let nearest : Value := .float (.ofBits 0x4340000000000000)
    odd.sameKey nearest = false ∧ (Value.bool true).sameKey (.int 1) = true := by
  have hbits : (Binary64.ofBits 0x4340000000000000).toBits = 0x4340000000000000 := by
    decide +kernel
  have hnearest : (Value.float (.ofBits 0x4340000000000000)).quantity? =
      some (.finite 9007199254740992) := by
    have hfields : (0x4340000000000000 : UInt64).toNat = 1076 * 2 ^ 52 := by decide
    rw [quantity?, hbits]
    norm_num [Quantity.ofBits?, hfields]
  constructor
  · rw [Bool.eq_false_iff]
    intro h
    obtain ⟨q, hodd, hq⟩ := (sameKey_quantity.1 _ _ (by decide)).mp h
    rw [hnearest, ← hodd] at hq
    have hint : (9007199254740993 : Int64).toInt = 9007199254740993 := by decide
    have heq := Quantity.finite.inj (Option.some.inj hq)
    rw [hint] at heq
    norm_num at heq
  · exact sameKey_quantity.2.2.1 _ (.float .one) _ (by decide +kernel) (by decide +kernel)

end Calculator
