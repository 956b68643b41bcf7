import Lox.Proofs.Resolution.Spelling
import Lox.Token.Scan

/-!
# Pieces of a source

A source is cut into pieces without gaps and without overlaps: the lexemes of all pieces, layout and
faults included, are the source. The kind of a token says how it is spelled.
-/

namespace Lox.Scan

open Resolution

/-- Kinds of tokens that are not words, numbers or strings. -/
def isSymbol : Token.Kind → Bool
  | .leftParen | .rightParen | .leftBrace | .rightBrace | .comma | .dot | .minus | .plus | .semicolon
  | .star | .slash | .bang | .bangEqual | .equal | .equalEqual | .less | .lessEqual | .greater
  | .greaterEqual => true
  | _ => false

/-- How the first byte of a piece decides what the piece is. -/
inductive Cut (c : UInt8) (s : Bytes) : Piece → Prop where
  | symbol {kind : Token.Kind} (hkind : isSymbol kind = true) : Cut c s (single kind c s)
  | slash : Cut c s (slash c s)
  | operator {long short : Token.Kind} (hlong : isSymbol long = true)
      (hshort : isSymbol short = true) : Cut c s (operator long short c s)
  | blank : Cut c s ⟨.layout, [c], s⟩
  | string (hc : c = 34) : Cut c s (string c s)
  | number (hc : Bytes.isDigit c = true) : Cut c s (number c s)
  | word (hc : Bytes.isLetter c = true) : Cut c s (word c s)
  | unexpected : Cut c s (unexpected c s)

theorem cut_first (c : UInt8) (s : Bytes) : Cut c s (first c s) := by
  unfold first
  split
  case h_11 => exact .slash
  case h_12 | h_13 | h_14 | h_15 => exact .operator rfl rfl
  case h_16 | h_17 | h_18 | h_19 => exact .blank
  case h_20 => exact .string rfl
  case h_21 =>
    split
    case isTrue hc => exact .number hc
    case isFalse =>
      split
      case isTrue hc => exact .word hc
      case isFalse => exact .unexpected
  all_goals exact .symbol rfl

/-! ### Pieces tile their source -/

theorem number_lexeme_append_rest (c : UInt8) (s : Bytes) :
    (number c s).lexeme ++ (number c s).rest = c :: s := by
  have hs := List.takeWhile_append_dropWhile (p := Bytes.isDigit) (l := s)
  unfold number
  dsimp only
  split
  case h_1 d rest heq =>
    split
    · rw [heq] at hs
      have hrest := List.takeWhile_append_dropWhile (p := Bytes.isDigit) (l := rest)
      calc
        c :: s.takeWhile Bytes.isDigit ++ 46 :: d :: rest.takeWhile Bytes.isDigit ++
            rest.dropWhile Bytes.isDigit =
          c :: (s.takeWhile Bytes.isDigit ++ 46 :: d ::
            (rest.takeWhile Bytes.isDigit ++ rest.dropWhile Bytes.isDigit)) := by simp
        _ = c :: s := by rw [hrest, hs]
    · exact congrArg (c :: ·) hs
  case h_2 => exact congrArg (c :: ·) hs

theorem string_lexeme_append_rest (c : UInt8) (s : Bytes) :
    (string c s).lexeme ++ (string c s).rest = c :: s := by
  have hs := List.takeWhile_append_dropWhile (p := (· != 34)) (l := s)
  unfold string
  dsimp only
  split
  case h_1 heq =>
    rw [heq] at hs
    exact congrArg (c :: ·) hs
  case h_2 quote rest heq =>
    rw [heq] at hs
    simpa using hs

theorem slash_lexeme_append_rest (c : UInt8) (s : Bytes) :
    (slash c s).lexeme ++ (slash c s).rest = c :: s := by
  unfold slash
  split
  · simp [List.takeWhile_append_dropWhile]
  · rfl

theorem operator_lexeme_append_rest (long short : Token.Kind) (c : UInt8) (s : Bytes) :
    (operator long short c s).lexeme ++ (operator long short c s).rest = c :: s := by
  unfold operator
  split <;> rfl

theorem Cut.lexeme_append_rest {c : UInt8} {s : Bytes} {p : Piece} (h : Cut c s p) :
    p.lexeme ++ p.rest = c :: s := by
  cases h with
  | symbol _ => rfl
  | slash => exact slash_lexeme_append_rest c s
  | operator _ _ => exact operator_lexeme_append_rest _ _ c s
  | blank => rfl
  | string _ => exact string_lexeme_append_rest c s
  | number _ => exact number_lexeme_append_rest c s
  | word _ => exact congrArg (c :: ·) (List.takeWhile_append_dropWhile)
  | unexpected => exact List.take_append_drop _ _

theorem first_lexeme_append_rest (c : UInt8) (s : Bytes) :
    (first c s).lexeme ++ (first c s).rest = c :: s :=
  (cut_first c s).lexeme_append_rest

/-- The pieces of a source from left to right. -/
def pieces : Bytes → List Piece
  | [] => []
  | c :: s => first c s :: pieces (first c s).rest
termination_by s => s.length
decreasing_by exact Nat.lt_succ_of_le (length_rest_first c s)

theorem flatMap_lexeme_pieces (s : Bytes) : (pieces s).flatMap Piece.lexeme = s := by
  induction s using pieces.induct with
  | case1 => simp [pieces]
  | case2 c s ih =>
      rw [pieces, List.flatMap_cons, ih]
      exact first_lexeme_append_rest c s

def Piece.token? (p : Piece) (endLine : Int) : Option Token :=
  match p.shape with
  | .token kind literal => some ⟨kind, p.lexeme, literal, endLine⟩
  | _ => none

def Piece.error? (p : Piece) (endLine : Int) : Option ScanError :=
  match p.shape with
  | .fault cause => some ⟨cause, endLine⟩
  | _ => none

/-- A scan that goes on where another one ends. -/
def followedBy (scan later : Scan) : Scan :=
  ⟨scan.tokens ++ later.tokens, scan.errors ++ later.errors, later.endLine⟩

/-- The scan of a piece that starts on the given line. -/
def Piece.scan (p : Piece) (line : Int) : Scan :=
  let endLine := line + newlines p.lexeme
  ⟨(p.token? endLine).toList, (p.error? endLine).toList, endLine⟩

theorem onward_cons (line : Int) (c : UInt8) (s : Bytes) :
    onward line (c :: s) =
      ((first c s).scan line).followedBy
        (onward (line + newlines (first c s).lexeme) (first c s).rest) := by
  rw [onward]
  unfold Piece.scan Piece.token? Piece.error?
  cases (first c s).shape <;> rfl

theorem tokens_onward (line : Int) (c : UInt8) (s : Bytes) :
    (onward line (c :: s)).tokens =
      ((first c s).token? (line + newlines (first c s).lexeme)).toList ++
        (onward (line + newlines (first c s).lexeme) (first c s).rest).tokens := by
  rw [onward_cons]
  rfl

theorem lexemes_sublist (line : Int) (s : Bytes) :
    ((onward line s).tokens.map Token.lexeme).Sublist ((pieces s).map Piece.lexeme) := by
  induction s using pieces.induct generalizing line with
  | case1 => simp [onward, pieces]
  | case2 c s ih =>
      rw [tokens_onward, pieces, List.map_append, List.map_cons]
      unfold Piece.token?
      cases (first c s).shape with
      | token kind literal => exact (ih _).cons_cons _
      | layout => exact (ih _).cons _
      | fault cause => exact (ih _).cons _

/-! ### Spelling -/

/-- A string stands between two quotes, and it denotes what stands there. -/
def Quoted (t : Token) : Prop :=
  ∃ body, t.literal = .str body ∧ t.lexeme = 34 :: body ++ [34]

theorem token_of_number {c : UInt8} {s : Bytes} {endLine : Int} {t : Token}
    (ht : (number c s).token? endLine = some t) : t.kind = .number := by
  unfold number at ht
  dsimp only at ht
  split at ht
  · split at ht <;> cases ht <;> rfl
  · cases ht
    rfl

theorem token_of_string {s : Bytes} {endLine : Int} {t : Token}
    (ht : (string 34 s).token? endLine = some t) : t.kind = .string ∧ Quoted t := by
  unfold string at ht
  dsimp only at ht
  split at ht
  case h_1 => cases ht
  case h_2 quote rest heq =>
    cases ht
    have hquote := List.head?_dropWhile_not (· != 34) s
    rw [heq] at hquote
    refine ⟨rfl, _, rfl, ?_⟩
    simpa using hquote

/-- A token is a symbol, a number, a word or a string. -/
theorem Cut.token_cases {c : UInt8} {s : Bytes} {p : Piece} (h : Cut c s p) {endLine : Int}
    {t : Token} (ht : p.token? endLine = some t) :
    isSymbol t.kind = true ∨ t.kind = .number ∨ t.kind = Token.Kind.ofWord t.lexeme ∨
      t.kind = .string ∧ Quoted t := by
  cases h with
  | symbol hkind =>
      cases ht
      exact .inl hkind
  | slash =>
      unfold Scan.slash at ht
      split at ht
      · cases ht
      · cases ht
        exact .inl rfl
  | operator hlong hshort =>
      unfold Scan.operator at ht
      split at ht
      · cases ht
        exact .inl hlong
      · cases ht
        exact .inl hshort
  | blank => cases ht
  | string hc =>
      subst hc
      exact .inr (.inr (.inr (token_of_string ht)))
  | number _ => exact .inr (.inl (token_of_number ht))
  | word _ =>
      cases ht
      exact .inr (.inr (.inl rfl))
  | unexpected => cases ht

theorem spelled_of_isSymbol {t : Token} (h : isSymbol t.kind = true) : t.Spelled := by
  refine ⟨fun hkind => ?_, fun hkind => ?_, fun hkind => ?_⟩ <;>
  · rw [hkind] at h
    cases h

theorem ofWord_thisName : Token.Kind.ofWord thisName = .thisWord := by decide

theorem ofWord_superName : Token.Kind.ofWord superName = .superWord := by decide

theorem mem_reservedWords_of_ofWord {word : Bytes} {kind : Token.Kind}
    (h : Token.Kind.ofWord word = kind) (hkind : kind ≠ .identifier) :
    (word, kind) ∈ Token.Kind.reservedWords := by
  unfold Token.Kind.ofWord Token.Kind.reserved? at h
  cases hlookup : Token.Kind.reservedWords.lookup word with
  | none =>
      rw [hlookup] at h
      exact absurd h.symm hkind
  | some found =>
      rw [hlookup, Option.getD_some] at h
      obtain ⟨before, after, hwords, -⟩ := List.lookup_eq_some_iff.mp hlookup
      rw [hwords, h]
      simp

theorem spelled_of_word {t : Token} (h : t.kind = Token.Kind.ofWord t.lexeme) : t.Spelled := by
  refine ⟨fun hkind => ⟨?_, ?_⟩, fun hkind => ?_, fun hkind => ?_⟩
  · rintro hname
    rw [h, hname, ofWord_thisName] at hkind
    cases hkind
  · rintro hname
    rw [h, hname, ofWord_superName] at hkind
    cases hkind
  · have hall : ∀ p ∈ Token.Kind.reservedWords, p.2 = .thisWord → p.1 = thisName := by decide
    exact hall _ (mem_reservedWords_of_ofWord (h.symm.trans hkind) (by decide)) rfl
  · have hall : ∀ p ∈ Token.Kind.reservedWords, p.2 = .superWord → p.1 = superName := by decide
    exact hall _ (mem_reservedWords_of_ofWord (h.symm.trans hkind) (by decide)) rfl

theorem ofWord_ne_string (word : Bytes) : Token.Kind.ofWord word ≠ .string := by
  intro h
  have hall : ∀ p ∈ Token.Kind.reservedWords, p.2 ≠ .string := by decide
  exact hall _ (mem_reservedWords_of_ofWord h (by decide)) rfl

theorem Cut.spelled {c : UInt8} {s : Bytes} {p : Piece} (h : Cut c s p) {endLine : Int} {t : Token}
    (ht : p.token? endLine = some t) : t.Spelled := by
  have hother (hkind : t.kind = .number ∨ t.kind = .string) : t.Spelled := by
    refine ⟨fun h => ?_, fun h => ?_, fun h => ?_⟩ <;>
    · rw [h] at hkind
      simp at hkind
  rcases h.token_cases ht with hsymbol | hnumber | hword | ⟨hstring, -⟩
  · exact spelled_of_isSymbol hsymbol
  · exact hother (.inl hnumber)
  · exact spelled_of_word hword
  · exact hother (.inr hstring)

theorem Cut.quoted {c : UInt8} {s : Bytes} {p : Piece} (h : Cut c s p) {endLine : Int} {t : Token}
    (ht : p.token? endLine = some t) (hkind : t.kind = .string) : Quoted t := by
  rcases h.token_cases ht with hsymbol | hnumber | hword | ⟨-, hquoted⟩
  · rw [hkind] at hsymbol
    cases hsymbol
  · rw [hkind] at hnumber
    cases hnumber
  · exact absurd (hword.symm.trans hkind) (ofWord_ne_string _)
  · exact hquoted

theorem forall_mem_tokens {P : Token → Prop}
    (h : ∀ c s endLine t, (first c s).token? endLine = some t → P t) (line : Int) (s : Bytes) :
    ∀ t ∈ (onward line s).tokens, P t := by
  induction s using pieces.induct generalizing line with
  | case1 => simp [onward]
  | case2 c s ih =>
      rw [tokens_onward]
      simp only [List.forall_mem_append, Option.mem_toList]
      exact ⟨fun t ht => h c s _ t ht, ih _⟩

/-- Every token of a source is spelled as its kind says. -/
theorem spelled_onward (line : Int) (s : Bytes) : ∀ t ∈ (onward line s).tokens, t.Spelled :=
  forall_mem_tokens (fun c s _ _ ht => (cut_first c s).spelled ht) line s

theorem quoted_onward (line : Int) (s : Bytes) :
    ∀ t ∈ (onward line s).tokens, t.kind = .string → Quoted t :=
  forall_mem_tokens (fun c s _ _ ht => (cut_first c s).quoted ht) line s

end Lox.Scan
