import Lox.Tree.Parser

/-!
# Reading without faults

`Reads p ts Q` says what a parser does on a token list in which it finds no fault: it yields a value
and a rest that satisfy `Q`. A parser that gives up has found a fault, so it reads nothing. The
rules follow the combinators; the equations at the end run a parser forwards on tokens that are
known.
-/

namespace Lox.Parser

variable {α β : Type}

def Reads (p : Parser α) (ts : List Token) (Q : α → List Token → Prop) : Prop :=
  (p ts).errors = [] → ∃ a rest, p ts = .ok a rest [] ∧ Q a rest

section Rules

variable {ts : List Token} {Q R : α → List Token → Prop}

theorem Reads.mono {p : Parser α} (h : Reads p ts Q) (hQ : ∀ a rest, Q a rest → R a rest) :
    Reads p ts R := by
  intro herrors
  obtain ⟨a, rest, hp, hq⟩ := h herrors
  exact ⟨a, rest, hp, hQ a rest hq⟩

theorem Reads.congr {p q : Parser α} (heq : p ts = q ts) (h : Reads q ts Q) : Reads p ts Q := by
  unfold Reads
  rw [heq]
  exact h

theorem reads_pure {a : α} (h : Q a ts) : Reads (pure a) ts Q :=
  fun _ => ⟨a, ts, rfl, h⟩

theorem bind_apply (p : Parser α) (f : α → Parser β) (ts : List Token) :
    (p >>= f) ts = match p ts with
      | .ok value rest errors => (f value rest).after errors
      | .failed rest errors => .failed rest errors := rfl

@[simp]
theorem after_nil (r : Parse α) : r.after [] = r := by
  cases r <;> rfl

@[simp]
theorem errors_after (errors : List SyntaxError) (r : Parse α) :
    (r.after errors).errors = errors ++ r.errors := by
  cases r <;> rfl

theorem reads_bind {p : Parser α} {f : α → Parser β} {Q : β → List Token → Prop}
    (h : Reads p ts fun a rest => Reads (f a) rest Q) : Reads (p >>= f) ts Q := by
  intro herrors
  rw [bind_apply] at herrors ⊢
  cases hp : p ts with
  | ok value rest errors =>
      simp only [hp, errors_after, List.append_eq_nil_iff] at herrors
      obtain ⟨a, rest', heq, hread⟩ := h (by rw [hp]; exact herrors.1)
      rw [hp] at heq
      cases heq
      simpa using hread herrors.2
  | failed rest errors =>
      simp only [hp] at herrors
      obtain ⟨a, rest', heq, _⟩ := h (by rw [hp]; exact herrors)
      rw [hp] at heq
      cases heq

theorem reads_map {p : Parser α} {f : α → β} {Q : β → List Token → Prop}
    (h : Reads p ts fun a rest => Q (f a) rest) : Reads (f <$> p) ts Q :=
  reads_bind (h.mono fun _ _ hq => reads_pure hq)

theorem reads_fail {cause : SyntaxError.Cause} : Reads (fail cause : Parser α) ts Q :=
  fun herrors => nomatch herrors

theorem reads_report {left : List Token} {cause : SyntaxError.Cause}
    {Q : Unit → List Token → Prop} : Reads (report left cause) ts Q :=
  fun herrors => nomatch herrors

theorem reads_here {Q : List Token → List Token → Prop} (h : Q ts ts) : Reads here ts Q :=
  fun _ => ⟨ts, ts, rfl, h⟩

theorem reads_sees {kind : Token.Kind} {Q : Bool → List Token → Prop}
    (h : Q (ts.head?.any (·.kind = kind)) ts) : Reads (sees kind) ts Q :=
  fun _ => ⟨_, ts, rfl, h⟩

theorem reads_accept? {kinds : List Token.Kind} {Q : Option Token → List Token → Prop}
    (hnone : (∀ t rest, ts = t :: rest → t.kind ∉ kinds) → Q none ts)
    (hsome : ∀ t rest, ts = t :: rest → t.kind ∈ kinds → Q (some t) rest) :
    Reads (accept? kinds) ts Q := by
  intro _
  cases ts with
  | nil => exact ⟨none, [], rfl, hnone fun _ _ h => nomatch h⟩
  | cons t rest =>
      by_cases hkind : t.kind ∈ kinds
      · exact ⟨some t, rest, by simp [accept?, hkind], hsome t rest rfl hkind⟩
      · refine ⟨none, t :: rest, by simp [accept?, hkind], hnone ?_⟩
        intro t' rest' heq
        cases heq
        exact hkind

theorem reads_expect {kind : Token.Kind} {cause : SyntaxError.Cause}
    {Q : Token → List Token → Prop}
    (h : ∀ t rest, ts = t :: rest → t.kind = kind → Q t rest) :
    Reads (expect kind cause) ts Q := by
  intro herrors
  cases ts with
  | nil => exact nomatch herrors
  | cons t rest =>
      by_cases hkind : t.kind = kind
      · exact ⟨t, rest, by simp [expect, hkind], h t rest rfl hkind⟩
      · simp [expect, hkind, fail, Parse.errors] at herrors

theorem reads_bounded {p : Nat → Parser α} (h : ∀ n, Reads (p n) ts Q) : Reads (bounded p) ts Q :=
  h ts.length

/-- What is dropped has a fault. -/
theorem reads_recovering {p : Parser α} {Q : Option α → List Token → Prop}
    (h : Reads p ts fun a rest => Q (some a) rest) : Reads (recovering p) ts Q := by
  intro herrors
  unfold recovering at herrors ⊢
  cases hp : p ts with
  | ok value rest errors =>
      simp only [hp, Parse.errors] at herrors
      obtain ⟨a, rest', heq, hq⟩ := h (by rw [hp]; exact herrors)
      rw [hp] at heq
      cases heq
      exact ⟨some value, rest, rfl, hq⟩
  | failed rest errors =>
      simp only [hp, Parse.errors] at herrors
      obtain ⟨a, rest', heq, _⟩ := h (by rw [hp]; exact herrors)
      rw [hp] at heq
      cases heq

end Rules

/-! ### Running forwards -/

section Forwards

variable {ts rest : List Token}

theorem bind_of_ok {p : Parser α} {a : α} (h : p ts = .ok a rest []) (f : α → Parser β) :
    (p >>= f) ts = f a rest := by
  rw [bind_apply, h]
  exact after_nil _

theorem map_of_ok {p : Parser α} {a : α} (h : p ts = .ok a rest []) (f : α → β) :
    (f <$> p) ts = .ok (f a) rest [] :=
  bind_of_ok h _

theorem expect_of_kind {t : Token} {kind : Token.Kind} (h : t.kind = kind)
    (cause : SyntaxError.Cause) (ts : List Token) : expect kind cause (t :: ts) = .ok t ts [] := by
  simp [expect, h]

theorem accept?_of_mem {t : Token} {kinds : List Token.Kind} (h : t.kind ∈ kinds)
    (ts : List Token) : accept? kinds (t :: ts) = .ok (some t) ts [] := by
  simp [accept?, h]

theorem accept?_of_stop {kinds : List Token.Kind}
    (h : ∀ t rest, ts = t :: rest → t.kind ∉ kinds) : accept? kinds ts = .ok none ts [] := by
  cases ts with
  | nil => rfl
  | cons t rest => simp [accept?, h t rest rfl]

theorem sees_of_kind {t : Token} {kind : Token.Kind} (h : t.kind = kind) (ts : List Token) :
    sees kind (t :: ts) = .ok true (t :: ts) [] := by
  simp [sees, h]

theorem sees_of_ne {t : Token} {kind : Token.Kind} (h : t.kind ≠ kind) (ts : List Token) :
    sees kind (t :: ts) = .ok false (t :: ts) [] := by
  simp [sees, h]

end Forwards

end Lox.Parser
