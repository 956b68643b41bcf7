import Lox.Eval

/-!
# Equality of values

Values are equal if they are the same but for what a number does not show: the payload of a NaN and
the sign of a zero. No NaN is a zero, so being the same in this way is an equivalence, and values of
different kinds are never equal. The operators for equality have a result for any two operands.
-/

namespace Lox

theorem Number.isNaN_eq_false_of_isZero {x : Number} (h : x.isZero = true) : x.isNaN = false := by
  have hzero : x.magnitude = 0 := eq_of_beq h
  rw [isNaN, hzero]
  rfl

namespace Value

inductive Kind where
  | nil
  | bool
  | num
  | str
  | function
  | clock
  | «class»
  | object
  deriving DecidableEq, Repr

def kind : Value → Kind
  | .nil => .nil
  | .bool _ => .bool
  | .num _ => .num
  | .str _ => .str
  | .function _ => .function
  | .clock => .clock
  | .class _ => .class
  | .object _ => .object

/-- Nothing but the payload of a NaN or the sign of a zero tells the values apart. -/
inductive Same : Value → Value → Prop where
  | refl (a : Value) : Same a a
  | nan {x y : Number} (hx : x.isNaN = true) (hy : y.isNaN = true) : Same (.num x) (.num y)
  | zero {x y : Number} (hx : x.isZero = true) (hy : y.isZero = true) : Same (.num x) (.num y)

variable {a b c : Value}

theorem Same.symm (h : a.Same b) : b.Same a := by
  cases h with
  | refl => exact .refl a
  | nan hx hy => exact .nan hy hx
  | zero hx hy => exact .zero hy hx

theorem Same.trans (h : a.Same b) (h' : b.Same c) : a.Same c := by
  cases h with
  | refl => exact h'
  | nan hx hy =>
      cases h' with
      | refl => exact .nan hx hy
      | nan _ hz => exact .nan hx hz
      | zero hy' _ =>
          rw [Number.isNaN_eq_false_of_isZero hy'] at hy
          cases hy
  | zero hx hy =>
      cases h' with
      | refl => exact .zero hx hy
      | nan hy' _ =>
          rw [Number.isNaN_eq_false_of_isZero hy] at hy'
          cases hy'
      | zero _ hz => exact .zero hx hz

theorem Same.kind_eq (h : a.Same b) : a.kind = b.kind := by
  cases h <;> rfl

theorem equal_num_iff (x y : Number) :
    (num x).equal (num y) = true ↔ (num x).Same (num y) := by
  constructor
  · intro h
    simp only [equal, Number.equal, Bool.or_eq_true, Bool.and_eq_true, beq_iff_eq] at h
    rcases h with ⟨hx, hy⟩ | ⟨-, rfl | ⟨hx, hy⟩⟩
    · exact .nan hx hy
    · exact .refl _
    · exact .zero hx hy
  · intro h
    cases h with
    | refl => cases hx : x.isNaN <;> simp [equal, Number.equal, hx]
    | nan hx hy => simp [equal, Number.equal, hx, hy]
    | zero hx hy =>
        simp [equal, Number.equal, hx, hy, Number.isNaN_eq_false_of_isZero hx,
          Number.isNaN_eq_false_of_isZero hy]

theorem same_iff_eq (h : a.kind ≠ .num ∨ b.kind ≠ .num) : a.Same b ↔ a = b := by
  constructor
  · rintro (_ | _ | _)
    · rfl
    · simp [kind] at h
    · simp [kind] at h
  · rintro rfl
    exact .refl a

theorem equal_iff (a b : Value) : a.equal b = true ↔ a.Same b := by
  have hother (h : a.equal b = (a == b)) (hkind : a.kind ≠ .num ∨ b.kind ≠ .num) :
      a.equal b = true ↔ a.Same b := by
    rw [h, beq_iff_eq, same_iff_eq hkind]
  cases a with
  | num x =>
      cases b with
      | num y => exact equal_num_iff x y
      | _ => exact hother rfl (.inr nofun)
  | _ => exact hother rfl (.inl nofun)

theorem equal_eq_false_iff (a b : Value) : a.equal b = false ↔ ¬a.Same b := by
  rw [← equal_iff, Bool.not_eq_true]

theorem eval_binary {n : Nat} {left right : Expr Site} {σ σ₁ σ₂ : State}
    (hleft : left.eval n σ = .ok a σ₁) (hright : right.eval n σ₁ = .ok b σ₂) (operator : Token) :
    (Expr.binary left operator right).eval (n + 1) σ = Eval.binary operator a b σ₂ := by
  simp only [Expr.eval, hleft, hright, Outcome.bind]

/-- Equality is an equivalence between values of one kind, and `==` and `!=` decide it for any two
operands, whatever these were evaluated from. -/
theorem equal_equivalence :
    (∀ a b : Value, a.equal b = true ↔ a.Same b) ∧
    (∀ a : Value, a.equal a = true) ∧
    (∀ a b : Value, a.equal b = b.equal a) ∧
    (∀ a b c : Value, a.equal b = true → b.equal c = true → a.equal c = true) ∧
    (∀ a b : Value, a.kind ≠ b.kind → a.equal b = false) ∧
    ∀ same different : Token, same.kind = .equalEqual → different.kind = .bangEqual →
      (∀ a b σ, Eval.binary same a b σ = .ok (.bool (a.equal b)) σ ∧
        Eval.binary different a b σ = .ok (.bool (!a.equal b)) σ) ∧
      ∀ (n : Nat) (left right : Expr Site) (a b : Value) (σ σ₁ σ₂ : State),
        left.eval n σ = .ok a σ₁ → right.eval n σ₁ = .ok b σ₂ →
        (Expr.binary left same right).eval (n + 1) σ = .ok (.bool (a.equal b)) σ₂ ∧
          (Expr.binary left different right).eval (n + 1) σ = .ok (.bool (!a.equal b)) σ₂ := by
  refine ⟨equal_iff, fun a => ?_, fun a b => ?_, fun a b c hab hbc => ?_, fun a b hkind => ?_, ?_⟩
  · exact (equal_iff a a).mpr (.refl a)
  · rw [Bool.eq_iff_iff, equal_iff, equal_iff]
    exact ⟨Same.symm, Same.symm⟩
  · rw [equal_iff] at hab hbc ⊢
    exact hab.trans hbc
  · rw [equal_eq_false_iff]
    exact fun hsame => hkind hsame.kind_eq
  · intro same different hsame hdifferent
    have hoperators (a b : Value) (σ : State) :
        Eval.binary same a b σ = .ok (.bool (a.equal b)) σ ∧
          Eval.binary different a b σ = .ok (.bool (!a.equal b)) σ := by
      simp only [Eval.binary, hsame, hdifferent]
      exact ⟨trivial, trivial⟩
    refine ⟨hoperators, fun n left right a b σ σ₁ σ₂ hleft hright => ?_⟩
    rw [eval_binary hleft hright, eval_binary hleft hright]
    exact hoperators a b σ₂

/-- Three NaNs are equal in a chain, a text is not `nil`, and the two zeros are equal operands. -/
theorem equal_equivalence_special :
    let quiet : Value := .num ⟨0x7FF8000000000000⟩
    let signalling : Value := .num ⟨0x7FF0000000000001⟩
    let negative : Value := .num ⟨0xFFF8000000000007⟩
    let zero : Expr Site := .literal (.num ⟨0⟩)
    let negativeZero : Expr Site := .literal (.num ⟨0x8000000000000000⟩)
    let same : Token := ⟨.equalEqual, bytes "==", .nil, 1⟩
    let different : Token := ⟨.bangEqual, bytes "!=", .nil, 1⟩
    let σ := State.initial []
    quiet.equal signalling = true ∧ signalling.equal negative = true ∧
      quiet.equal negative = true ∧ (str []).equal nil = false ∧
      Eval.binary same quiet negative σ = .ok (.bool true) σ ∧
      (Expr.binary zero same negativeZero).eval 2 σ = .ok (.bool true) σ ∧
      (Expr.binary zero different negativeZero).eval 2 σ = .ok (.bool false) σ := by
  intro quiet signalling negative zero negativeZero same different σ
  obtain ⟨-, -, -, htrans, hkinds, hoperators⟩ := equal_equivalence
  obtain ⟨hvalues, hexpressions⟩ := hoperators same different rfl rfl
  have hquiet : quiet.equal signalling = true := by decide
  have hsignalling : signalling.equal negative = true := by decide
  have hnans : quiet.equal negative = true := htrans _ _ _ hquiet hsignalling
  have hbinary := (hvalues quiet negative σ).1
  rw [hnans] at hbinary
  obtain ⟨hsame, hdifferent⟩ := hexpressions 1 zero negativeZero (.num ⟨0⟩)
    (.num ⟨0x8000000000000000⟩) σ σ σ rfl rfl
  have hzeros : (num ⟨0⟩).equal (num ⟨0x8000000000000000⟩) = true := by decide
  rw [hzeros] at hsame hdifferent
  exact ⟨hquiet, hsignalling, hnans, hkinds (str []) nil (by decide), hbinary, hsame, hdifferent⟩

end Value

end Lox
