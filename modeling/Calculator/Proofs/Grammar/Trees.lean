import Calculator.Proofs.Evaluation
import Calculator.Proofs.Grammar.Derivation

/-
  The expressions that the trees of phrases consist of: one for most phrases,
  those of its places for a display.

  What is proved:
    1. `derives_built` — the literals of a derived expression are what its tokens can
       be, and none of its set displays is empty.
    2. `derives_leaves` — so its literals are scalars.
-/

namespace Calculator

/-- Neither a list nor a tuple, set or dict. -/
def Value.isScalar : Value → Bool
  | .list _ | .tuple _ | .set _ | .dict _ => false
  | _ => true

/-- All literals that the token can be have the property. A string is one literal with
    those next to it, so that it can be any. -/
def Token.Gives (P : Value → Prop) : Token → Prop
  | .int n => P (.int n)
  | .float x => P (.float x)
  | .bool b => P (.bool b)
  | .null => P .null
  | .str _ => ∀ s, P (.str s)
  | _ => True

theorem gives_isScalar (t : Token) : t.Gives (·.isScalar = true) := by
  cases t with
  | int _ | float _ | bool _ | null => rfl
  | str _ => exact fun _ => rfl
  | name _ | comparison _ | symbol _ | eof => trivial

namespace Grammar

def Place.parts : (k : Place) → k.Tree → List Expr
  | .element => Element.parts
  | .entry => Entry.parts

def Phrase.parts : (p : Phrase) → p.Tree → List Expr
  | .place k, x => k.parts x
  | .places k, xs => xs.flatMap k.parts
  | .list, e | .expression, e | .joined _, e | .unary, e | .power, e | .atom, e => [e]

theorem forall_parts_places {k : Place} {P : Expr → Prop} {xs : List k.Tree} :
    (∀ e ∈ (Phrase.places k).parts xs, P e) ↔ ∀ x ∈ xs, ∀ e ∈ k.parts x, P e :=
  List.forall_mem_flatMap

theorem derives_built {P : Value → Prop} {p : Phrase} {ts : List Token} {x : p.Tree} {n : Nat}
    (h : Derives p ts x n) (hts : ∀ t ∈ ts, t.Gives P) : ∀ e ∈ p.parts x, e.Built P (· ≠ []) := by
  -- the trees of most phrases are single expressions
  have one {P : Expr → Prop} {e : Expr} : (∀ e' ∈ [e], P e') ↔ P e := List.forall_mem_singleton
  induction h with
  | lone _ ih | operand _ ih | tighter _ ih | unjoined _ ih | unsigned _ ih | base _ ih
  | item _ ih => exact ih hts
  | int _ | float _ | bool _ | null =>
    have hgives := List.forall_mem_singleton.mp hts
    exact one.mpr (.literal hgives)
  | strings s more => exact one.mpr (.literal ((List.forall_mem_cons.mp hts).1 _))
  | emptyTuple => exact one.mpr (.tuple nofun)
  | none => exact nofun
  | not _ ih | signed _ _ ih =>
    exact one.mpr (.unary (one.mp (ih (List.forall_mem_cons.mp hts).2)))
  | spreadElements _ ih | spreadEntries _ ih => exact ih (List.forall_mem_cons.mp hts).2
  | join _ _ _ ihl ihr | raised _ _ ihl ihr =>
    obtain ⟨hl, hr⟩ := List.forall_mem_append.mp hts
    exact one.mpr (.binary (one.mp (ihl hl)) (one.mp (ihr (List.forall_mem_cons.mp hr).2)))
  | bareTuple _ _ ih ihs =>
    obtain ⟨hx, hxs⟩ := List.forall_mem_append.mp hts
    exact one.mpr (.tuple (List.forall_mem_cons.mpr
      ⟨ih hx, forall_parts_places.mp (ihs (List.forall_mem_cons.mp hxs).2)⟩))
  | pair _ _ ihk ihv =>
    obtain ⟨hk, hv⟩ := List.forall_mem_append.mp hts
    exact List.forall_mem_cons.mpr ⟨one.mp (ihk hk), ihv (List.forall_mem_cons.mp hv).2⟩
  | last _ ih => exact forall_parts_places.mpr (List.forall_mem_singleton.mpr (ih hts))
  | more _ _ ih ihs =>
    obtain ⟨hx, hxs⟩ := List.forall_mem_append.mp hts
    exact forall_parts_places.mpr (List.forall_mem_cons.mpr
      ⟨ih hx, forall_parts_places.mp (ihs (List.forall_mem_cons.mp hxs).2)⟩)
  | round _ ih => exact ih (List.forall_mem_append.mp (List.forall_mem_cons.mp hts).2).1
  | square _ ih =>
    have hinner := (List.forall_mem_append.mp (List.forall_mem_cons.mp hts).2).1
    exact one.mpr (.list (forall_parts_places.mp (ih hinner)))
  | set _ ih =>
    have hinner := (List.forall_mem_append.mp (List.forall_mem_cons.mp hts).2).1
    exact one.mpr (.set (List.cons_ne_nil _ _) (forall_parts_places.mp (ih hinner)))
  | dict _ ih =>
    have hinner := (List.forall_mem_append.mp (List.forall_mem_cons.mp hts).2).1
    exact one.mpr (.dict (forall_parts_places.mp (ih hinner)))

theorem derives_leaves {p : Phrase} {ts : List Token} {x : p.Tree} {n : Nat}
    (h : Derives p ts x n) (e : Expr) (he : e ∈ p.parts x) : e.Leaves (·.isScalar = true) := by
  have hbuilt := derives_built h (fun t _ => gives_isScalar t) e he
  exact hbuilt.mono (fun _ hv => hv) fun _ _ => trivial

end Grammar

end Calculator
