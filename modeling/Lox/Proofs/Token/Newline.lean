import Lox.Proofs.Lines.Tree
import Lox.Proofs.Token.Pieces

/-!
# Sources on consecutive lines

No piece goes past a line feed but a comment, which ends in front of it, and a string, which needs
its closing quote. So a source without an unterminated string is scanned in front of a line feed as
it is scanned alone, and the source behind it as it is scanned alone, on later lines.
-/

namespace Lox

/-! ### Characters in front of a line feed -/

namespace Utf8

theorem continuation_newline (count high : Nat) (s q : Bytes) :
    continuation count high (s ++ 10 :: q) = continuation count high s := by
  induction count generalizing high s with
  | zero => rfl
  | succ count ih =>
      cases s with
      | nil => rfl
      | cons b s => simp only [List.cons_append, continuation, ih]

theorem le_length_of_continuation {count high code : Nat} {s : Bytes}
    (h : continuation count high s = some code) : count ≤ s.length := by
  induction count generalizing high s with
  | zero => exact Nat.zero_le _
  | succ count ih =>
      cases s with
      | nil => cases h
      | cons b s =>
          rw [continuation] at h
          split at h
          · exact Nat.succ_le_succ (ih h)
          · cases h

theorem first?_newline (b : UInt8) (s q : Bytes) :
    first? (b :: (s ++ 10 :: q)) = first? (b :: s) := by
  simp only [first?, continuation_newline]

theorem width_newline (b : UInt8) (s q : Bytes) :
    width (b :: (s ++ 10 :: q)) = width (b :: s) := by
  simp only [width, first?_newline]

theorem width_le_of_accept {least width count high : Nat} {s : Bytes} {e : Encoded}
    (h : accept least width (continuation count high s) = some e) (hwidth : width = count + 1) :
    e.width ≤ s.length + 1 := by
  rw [accept_width h, hwidth]
  cases hcode : continuation count high s with
  | none =>
      rw [hcode] at h
      cases h
  | some code => exact Nat.succ_le_succ (le_length_of_continuation hcode)

theorem width_le_length (b : UInt8) (s : Bytes) : width (b :: s) ≤ s.length + 1 := by
  unfold width
  split
  case h_1 e he =>
    rw [first?] at he
    split at he
    · cases he
      exact Nat.le_add_left 1 s.length
    · split at he
      · cases he
      · split at he
        · exact width_le_of_accept he rfl
        · split at he
          · exact width_le_of_accept he rfl
          · split at he
            · exact width_le_of_accept he rfl
            · cases he
  case h_2 => exact Nat.le_add_left 1 s.length

end Utf8

namespace Scan

/-! ### Pieces in front of a line feed -/

/-- The piece with more source behind it. -/
def Piece.before (p : Piece) (q : Bytes) : Piece :=
  { p with rest := p.rest ++ q }

section Stops

variable {p : UInt8 → Bool} {b : UInt8}

theorem takeWhile_append_stop (h : p b = false) (s q : Bytes) :
    (s ++ b :: q).takeWhile p = s.takeWhile p := by
  induction s with
  | nil => simp [h]
  | cons a s ih => simp [List.takeWhile_cons, ih]

theorem dropWhile_append_stop (h : p b = false) (s q : Bytes) :
    (s ++ b :: q).dropWhile p = s.dropWhile p ++ b :: q := by
  induction s with
  | nil => simp [h]
  | cons a s ih =>
      simp only [List.cons_append, List.dropWhile_cons, ih]
      split <;> rfl

end Stops

variable (c : UInt8) (s q : Bytes)

theorem operator_newline (long short : Token.Kind) :
    operator long short c (s ++ 10 :: q) = (operator long short c s).before (10 :: q) := by
  cases s with
  | nil => rfl
  | cons b s =>
      by_cases hb : b = 61
      · subst hb
        rfl
      · simp [operator, hb, Piece.before]

theorem slash_newline : slash c (s ++ 10 :: q) = (slash c s).before (10 :: q) := by
  cases s with
  | nil => rfl
  | cons b s =>
      by_cases hb : b = 47
      · subst hb
        have htake := takeWhile_append_stop (p := (· != Bytes.lineFeed)) (b := 10) rfl s q
        have hdrop := dropWhile_append_stop (p := (· != Bytes.lineFeed)) (b := 10) rfl s q
        simp only [slash, List.cons_append, htake, hdrop, Piece.before]
      · simp [slash, hb, Piece.before]

theorem word_newline : word c (s ++ 10 :: q) = (word c s).before (10 :: q) := by
  have hstop : Bytes.isWordByte 10 = false := by decide
  simp only [word, takeWhile_append_stop hstop, dropWhile_append_stop hstop, Piece.before]

theorem unexpected_newline : unexpected c (s ++ 10 :: q) = (unexpected c s).before (10 :: q) := by
  have hwidth : Utf8.width (c :: s) ≤ (c :: s).length := Utf8.width_le_length c s
  simp only [unexpected, Utf8.width_newline, Piece.before]
  rw [← List.cons_append, List.take_append_of_le_length hwidth,
    List.drop_append_of_le_length hwidth]

theorem number_newline : number c (s ++ 10 :: q) = (number c s).before (10 :: q) := by
  have hstop : Bytes.isDigit 10 = false := by decide
  simp only [number, takeWhile_append_stop hstop, dropWhile_append_stop hstop]
  match s.dropWhile Bytes.isDigit with
  | [] => rfl
  | [b] =>
      by_cases hb : b = 46
      · subst hb
        rfl
      · simp [hb, Piece.before]
  | b :: d :: rest =>
      by_cases hb : b = 46
      · subst hb
        by_cases hd : Bytes.isDigit d = true
        · simp [hd, takeWhile_append_stop hstop, dropWhile_append_stop hstop, Piece.before]
        · simp [hd, Piece.before]
      · simp [hb, Piece.before]

theorem string_newline (h : (string c s).shape ≠ .fault .unterminatedString) :
    string c (s ++ 10 :: q) = (string c s).before (10 :: q) := by
  unfold string at h ⊢
  dsimp only at h ⊢
  cases hquote : s.dropWhile (· != 34) with
  | nil =>
      rw [hquote] at h
      exact absurd rfl h
  | cons quote rest =>
      have hlong : (s.takeWhile (· != 34)).length ≠ s.length := by
        intro heq
        have hlength :=
          congrArg List.length (List.takeWhile_append_dropWhile (p := (· != 34)) (l := s))
        rw [List.length_append, heq, hquote] at hlength
        simp at hlength
      rw [List.dropWhile_append, List.takeWhile_append, if_neg hlong, hquote]
      rfl

/-- A piece is the same in front of a line feed, unless it is a string without an end. -/
theorem first_newline (h : (first c s).shape ≠ .fault .unterminatedString) :
    first c (s ++ 10 :: q) = (first c s).before (10 :: q) := by
  revert h
  unfold first
  split
  case h_11 => exact fun _ => slash_newline _ s q
  case h_12 | h_13 | h_14 | h_15 => exact fun _ => operator_newline _ s q _ _
  case h_20 => exact string_newline _ s q
  case h_21 =>
    intro _
    split
    · exact number_newline c s q
    · split
      · exact word_newline c s q
      · exact unexpected_newline c s q
  all_goals exact fun _ => rfl

/-! ### Sources in front of a line feed -/

theorem followedBy_assoc (a b d : Scan) :
    (a.followedBy b).followedBy d = a.followedBy (b.followedBy d) := by
  simp [followedBy]

theorem first_rest_newline {line : Int} {c : UInt8} {s : Bytes}
    (h : ∀ e ∈ (onward line (c :: s)).errors, e.cause ≠ .unterminatedString) :
    (first c s).shape ≠ .fault .unterminatedString ∧
      ∀ e ∈ (onward (line + newlines (first c s).lexeme) (first c s).rest).errors,
        e.cause ≠ .unterminatedString := by
  rw [onward_cons, followedBy, List.forall_mem_append] at h
  refine ⟨fun hshape => ?_, h.2⟩
  have hcause := h.1 ⟨.unterminatedString, line + newlines (first c s).lexeme⟩
  simp [Piece.scan, Piece.error?, hshape] at hcause

/-- A source is scanned in front of a line feed as it is scanned alone. Then the scan goes on. -/
theorem onward_newline (line : Int) (s q : Bytes)
    (h : ∀ e ∈ (onward line s).errors, e.cause ≠ .unterminatedString) :
    onward line (s ++ 10 :: q) =
      (onward line s).followedBy (onward ((onward line s).endLine + 1) q) := by
  induction s using pieces.induct generalizing line with
  | case1 =>
      rw [List.nil_append, onward_cons]
      simp only [onward]
      rfl
  | case2 c s ih =>
      obtain ⟨hshape, hrest⟩ := first_rest_newline h
      have hfirst := first_newline c s q hshape
      rw [List.cons_append, onward_cons line c s, onward_cons, hfirst, followedBy_assoc]
      rw [show ((first c s).before (10 :: q)).rest = (first c s).rest ++ 10 :: q from rfl]
      exact congrArg _ (ih _ hrest)

/-! ### Later lines -/

end Scan

def ScanError.renumber (g : Int → Int) (e : ScanError) : ScanError :=
  { e with line := g e.line }

def Scan.renumber (g : Int → Int) (scan : Scan) : Scan :=
  ⟨scan.tokens.map (Token.renumber g), scan.errors.map (ScanError.renumber g), g scan.endLine⟩

namespace Scan

theorem followedBy_renumber (g : Int → Int) (a b : Scan) :
    (a.followedBy b).renumber g = (a.renumber g).followedBy (b.renumber g) := by
  simp [followedBy, Scan.renumber]

theorem Piece.scan_add (p : Piece) (line k : Int) :
    p.scan (line + k) = (p.scan line).renumber (· + k) := by
  have hline : line + k + newlines p.lexeme = line + newlines p.lexeme + k :=
    Int.add_right_comm line k (newlines p.lexeme)
  simp only [Piece.scan, Piece.token?, Piece.error?, hline]
  cases p.shape <;> rfl

theorem onward_add (line k : Int) (s : Bytes) :
    onward (line + k) s = (onward line s).renumber (· + k) := by
  induction s using pieces.induct generalizing line with
  | case1 =>
      simp only [onward]
      rfl
  | case2 c s ih =>
      rw [onward_cons, onward_cons, followedBy_renumber, Piece.scan_add, ← ih]
      rw [Int.add_right_comm line k]

/-- Two sources on consecutive lines. The second one starts one line behind the end of the first. -/
theorem source_newline (s q : Bytes)
    (h : ∀ e ∈ (source s).errors, e.cause ≠ .unterminatedString) :
    source (s ++ 10 :: q) =
      (source s).followedBy ((source q).renumber (· + (source s).endLine)) := by
  have hscan := onward_newline 1 s q h
  rw [Int.add_comm _ 1, onward_add] at hscan
  exact hscan

end Scan

end Lox
