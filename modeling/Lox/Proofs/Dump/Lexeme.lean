import Lox.Proofs.Dump.Form
import Lox.Proofs.Lines.Tree
import Lox.Proofs.Token.Layout

/-!
# Tokens by their lexemes

The lexeme of a token that is neither a number nor a string tells its kind. So the token can be
rebuilt from it, all but the line.
-/

namespace Lox

/-! ### Tokens -/

namespace Token

def onLineZero (t : Token) : Token :=
  t.renumber fun _ => 0

/-- Symbols and reserved words with their kinds. -/
def fixed : List (Bytes × Kind) :=
  Scan.symbols ++ Kind.reservedWords

/-- What is no symbol and no reserved word is a name. -/
def kindOf (lexeme : Bytes) : Kind :=
  (fixed.lookup lexeme).getD .identifier

def ofLexeme (lexeme : Bytes) : Token :=
  ⟨kindOf lexeme, lexeme, .nil, 0⟩

/-- A token as it is scanned. -/
def Genuine (t : Token) : Prop :=
  Scan.Matches t.lexeme (.token t.kind t.literal)

theorem lookup_fixed {lexeme : Bytes} {kind : Kind} (h : (lexeme, kind) ∈ fixed) :
    fixed.lookup lexeme = some kind := by
  have hall : ∀ p ∈ fixed, fixed.lookup p.1 = some p.2 := by decide +kernel
  exact hall _ h

theorem kindOf_of_mem_fixed {lexeme : Bytes} {kind : Kind} (h : (lexeme, kind) ∈ fixed) :
    kindOf lexeme = kind := by
  rw [kindOf, lookup_fixed h]
  rfl

/-- No kind in the table has a second lexeme, there or elsewhere. -/
theorem kind_of_mem_fixed {p : Bytes × Kind} (h : p ∈ fixed) :
    p.2 ∉ [Kind.number, .string, .identifier] ∧ ∀ q ∈ fixed, q.2 = p.2 → q.1 = p.1 := by
  have hall : ∀ p ∈ fixed, p.2 ∉ [Kind.number, .string, .identifier] ∧
      ∀ q ∈ fixed, q.2 = p.2 → q.1 = p.1 := by
    decide +kernel
  exact hall p h

/-- The heads that are spelled like a name. -/
theorem kindOf_head {head : Bytes}
    (h : head ∈ [bytes "call", bytes "group", bytes "block", bytes "if-else"]) :
    kindOf head = .identifier := by
  have hall : ∀ head ∈ [bytes "call", bytes "group", bytes "block", bytes "if-else"],
      kindOf head = .identifier := by
    decide +kernel
  exact hall head h

theorem lookup_letter {c : UInt8} {s : Bytes} (hc : Bytes.isLetter c = true)
    (hword : ∀ kind, (c :: s, kind) ∉ Kind.reservedWords) : fixed.lookup (c :: s) = none := by
  have hsymbols : ∀ p ∈ Scan.symbols, p.1.head?.any Bytes.isLetter = false := by decide
  rw [List.lookup_eq_none_iff]
  rintro ⟨lexeme, kind⟩ hmem
  rw [bne_iff_ne]
  rintro rfl
  rcases List.mem_append.mp hmem with hsymbol | hreserved
  · have hnone : Bytes.isLetter c = false := hsymbols _ hsymbol
    rw [hc] at hnone
    cases hnone
  · exact hword kind hreserved

theorem ofLexeme_of_genuine {t : Token} (h : t.Genuine) (hnumber : t.kind ≠ .number)
    (hstring : t.kind ≠ .string) : ofLexeme t.lexeme = t.onLineZero := by
  obtain ⟨kind, lexeme, literal, line⟩ := t
  change Scan.Matches lexeme (.token kind literal) at h
  cases h with
  | string _ => exact absurd rfl hstring
  | integer _ _ | decimal _ _ _ => exact absurd rfl hnumber
  | keyword hc hs hword =>
      have hlookup := lookup_fixed (List.mem_append_right Scan.symbols hword)
      rw [ofLexeme, kindOf, hlookup]
      rfl
  | identifier hc hs hword =>
      rw [ofLexeme, kindOf, lookup_letter hc hword]
      rfl
  | symbol hsymbol =>
      have hlookup := lookup_fixed (List.mem_append_left Kind.reservedWords hsymbol)
      rw [ofLexeme, kindOf, hlookup]
      rfl

/-- A token with a fixed lexeme is the one in the table. -/
theorem fixed_of_genuine {t : Token} (h : t.Genuine) (hnumber : t.kind ≠ .number)
    (hstring : t.kind ≠ .string) (hname : t.kind ≠ .identifier) : (t.lexeme, t.kind) ∈ fixed := by
  obtain ⟨kind, lexeme, literal, line⟩ := t
  change Scan.Matches lexeme (.token kind literal) at h
  cases h with
  | string _ => exact absurd rfl hstring
  | integer _ _ | decimal _ _ _ => exact absurd rfl hnumber
  | keyword hc hs hword => exact List.mem_append_right _ hword
  | identifier _ _ _ => exact absurd rfl hname
  | symbol hsymbol => exact List.mem_append_left _ hsymbol

/-- A name as it is scanned. -/
structure Name (t : Token) : Prop where
  genuine : t.Genuine
  isName : t.kind = .identifier

theorem Name.spelled {t : Token} (h : t.Name) :
    ∃ c s, t.lexeme = c :: s ∧ Bytes.isLetter c = true ∧
      (∀ b ∈ s, Bytes.isWordByte b = true) ∧ ∀ kind, (c :: s, kind) ∉ Kind.reservedWords := by
  obtain ⟨hmatch, hname⟩ := h
  obtain ⟨kind, lexeme, literal, line⟩ := t
  change Scan.Matches lexeme (.token kind literal) at hmatch
  change kind = .identifier at hname
  subst hname
  cases hmatch with
  | keyword _ _ hword =>
      have hall : ∀ p ∈ Kind.reservedWords, p.2 ≠ .identifier := by decide
      exact absurd rfl (hall _ hword)
  | identifier hc hs hword => exact ⟨_, _, rfl, hc, hs, hword⟩
  | symbol hsymbol =>
      have hall : ∀ p ∈ Scan.symbols, p.2 ≠ .identifier := by decide
      exact absurd rfl (hall _ hsymbol)

theorem Name.ofLexeme {t : Token} (h : t.Name) : Token.ofLexeme t.lexeme = t.onLineZero := by
  apply ofLexeme_of_genuine h.genuine <;>
  · rw [h.isName]
    decide

theorem isPlain_of_isWordByte {b : UInt8} (h : Bytes.isWordByte b = true) : isPlain b = true := by
  apply Form.isPlain_of_isNumberByte
  rw [Number.isNumberByte, h]
  rfl

theorem startsNumber_of_isLetter {b : UInt8} (h : Bytes.isLetter b = true) :
    Number.startsNumber b = false := by
  have hword : Bytes.isWordByte b = true := by rw [Bytes.isWordByte, h, Bool.true_or]
  rw [Number.startsNumber, Scan.isDigit_of_isLetter h, Number.isSign_of_isWordByte hword]
  rfl

theorem Name.plain {t : Token} (h : t.Name) : t.lexeme.all isPlain = true := by
  obtain ⟨c, s, hlexeme, hc, hs, -⟩ := h.spelled
  have hword : Bytes.isWordByte c = true := by rw [Bytes.isWordByte, hc, Bool.true_or]
  rw [hlexeme, List.all_eq_true, List.forall_mem_cons]
  exact ⟨isPlain_of_isWordByte hword, fun b hb => isPlain_of_isWordByte (hs b hb)⟩

theorem Name.isWord {t : Token} (h : t.Name) : Form.IsWord t.lexeme := by
  obtain ⟨c, s, hlexeme, hc, hs, hword⟩ := h.spelled
  refine ⟨h.plain, ⟨c, s, hlexeme, startsNumber_of_isLetter hc⟩, fun hother => ?_⟩
  have hreserved : ∀ name ∈ [bytes "nil", bytes "true", bytes "false"],
      ∃ kind, (name, kind) ∈ Kind.reservedWords := by
    simp only [List.forall_mem_cons]
    exact ⟨⟨.nilWord, by decide⟩, ⟨.trueWord, by decide⟩, ⟨.falseWord, by decide⟩, by simp⟩
  obtain ⟨kind, hkind⟩ := hreserved _ hother
  exact hword kind (hlexeme ▸ hkind)

/-- No symbol begins with a point or an equals sign and goes on with a letter. -/
theorem Name.kindOf_prefixed {t : Token} (h : t.Name) {b : UInt8} (hb : b ∈ [46, 61]) :
    kindOf (b :: t.lexeme) = .identifier := by
  obtain ⟨c, s, hlexeme, hc, -, -⟩ := h.spelled
  have hall : ∀ p ∈ fixed, ∀ b ∈ [46, 61], p.1.head? = some b →
      p.1 ∈ [[46], [61], [61, 61]] := by
    decide +kernel
  have hnone : fixed.lookup (b :: t.lexeme) = none := by
    rw [List.lookup_eq_none_iff]
    rintro ⟨lexeme, kind⟩ hmem
    rw [bne_iff_ne]
    rintro rfl
    have hfew := hall _ hmem b hb rfl
    rw [hlexeme] at hfew
    simp only [List.mem_cons, List.cons.injEq, List.not_mem_nil, or_false, reduceCtorEq,
      and_false, false_or] at hfew
    obtain rfl := hfew.2.1
    exact absurd hc (by decide)
  rw [kindOf, hnone]
  rfl

/-- A token of a kind with one lexeme is the same everywhere, but for its line. -/
theorem onLineZero_of_fixed {t : Token} (h : t.Genuine) {lexeme : Bytes}
    (hfixed : (lexeme, t.kind) ∈ fixed) : ofLexeme lexeme = t.onLineZero := by
  obtain ⟨hvaried, hone⟩ := kind_of_mem_fixed hfixed
  simp only [List.mem_cons, List.not_mem_nil, or_false, not_or] at hvaried
  obtain ⟨hnumber, hstring, hname⟩ := hvaried
  have hlexeme : t.lexeme = lexeme := hone _ (fixed_of_genuine h hnumber hstring hname) rfl
  rw [← hlexeme]
  exact ofLexeme_of_genuine h hnumber hstring

/-- An operator as it is scanned. -/
structure Operator (t : Token) : Prop where
  genuine : t.Genuine
  operates : t.kind ∈ [Kind.bang, .bangEqual, .equalEqual, .greater, .greaterEqual, .less,
    .lessEqual, .minus, .plus, .slash, .star, .andWord, .orWord]

theorem Operator.kind_ne {t : Token} (h : t.Operator) :
    t.kind ≠ .number ∧ t.kind ≠ .string ∧ t.kind ≠ .identifier := by
  have hoperates := h.operates
  refine ⟨?_, ?_, ?_⟩ <;>
  · intro hkind
    rw [hkind] at hoperates
    exact absurd hoperates (by decide)

theorem Operator.ofLexeme {t : Token} (h : t.Operator) :
    Token.ofLexeme t.lexeme = t.onLineZero :=
  ofLexeme_of_genuine h.genuine h.kind_ne.1 h.kind_ne.2.1

theorem Operator.plain {t : Token} (h : t.Operator) : t.lexeme.all isPlain = true := by
  have hall : ∀ p ∈ fixed, p.2 ≠ .leftParen → p.2 ≠ .rightParen → p.1.all isPlain = true := by
    decide +kernel
  obtain ⟨hnumber, hstring, hname⟩ := h.kind_ne
  have hoperates := h.operates
  refine hall _ (fixed_of_genuine h.genuine hnumber hstring hname) ?_ ?_ <;>
  · intro hkind
    rw [show t.kind = _ from hkind] at hoperates
    exact absurd hoperates (by decide)

end Token

end Lox
