import Lox.Proofs.Text.Character
import Lox.Proofs.Token.Runs

/-!
# Longest match

What a lexeme may be is said here by patterns, apart from the scanner. A reference tokeniser takes
the longest match at each position, and skips what no pattern matches. Its tokens and its reports are
those of the scanner.
-/

namespace Lox.Scan

/-! ### Patterns -/

def symbols : List (Bytes × Token.Kind) :=
  [(bytes "(", .leftParen), (bytes ")", .rightParen), (bytes "\x7b", .leftBrace),
    (bytes "\x7d", .rightBrace), (bytes ",", .comma), (bytes ".", .dot), (bytes "-", .minus),
    (bytes "+", .plus), (bytes ";", .semicolon), (bytes "/", .slash), (bytes "*", .star),
    (bytes "!", .bang), (bytes "!=", .bangEqual), (bytes "=", .equal), (bytes "==", .equalEqual),
    (bytes ">", .greater), (bytes ">=", .greaterEqual), (bytes "<", .less),
    (bytes "<=", .lessEqual)]

/-- The bytes match a pattern as a whole, and this is what they stand for. -/
inductive Matches : Bytes → Shape → Prop where
  | blank {b : UInt8}
      (hb : b ∈ [Bytes.space, Bytes.carriageReturn, Bytes.tab, Bytes.lineFeed]) :
      Matches [b] .layout
  | comment {text : Bytes} (htext : ∀ b ∈ text, b ≠ Bytes.lineFeed) :
      Matches (47 :: 47 :: text) .layout
  | string {body : Bytes} (hbody : ∀ b ∈ body, b ≠ 34) :
      Matches (34 :: (body ++ [34])) (.token .string (.str body))
  | integer {digits : Bytes} (hsome : digits ≠ [])
      (hdigits : ∀ b ∈ digits, Bytes.isDigit b = true) :
      Matches digits (.token .number (.num (.ofDecimal (Bytes.toNat digits) 0)))
  | decimal {whole fraction : Bytes} (hwhole : whole ≠ []) (hfraction : fraction ≠ [])
      (hdigits : ∀ b ∈ whole ++ fraction, Bytes.isDigit b = true) :
      Matches (whole ++ 46 :: fraction)
        (.token .number (.num (.ofDecimal (Bytes.toNat (whole ++ fraction)) fraction.length)))
  | keyword {c : UInt8} {s : Bytes} {kind : Token.Kind} (hc : Bytes.isLetter c = true)
      (hs : ∀ b ∈ s, Bytes.isWordByte b = true)
      (hword : (c :: s, kind) ∈ Token.Kind.reservedWords) :
      Matches (c :: s) (.token kind .nil)
  | identifier {c : UInt8} {s : Bytes} (hc : Bytes.isLetter c = true)
      (hs : ∀ b ∈ s, Bytes.isWordByte b = true)
      (hword : ∀ kind, (c :: s, kind) ∉ Token.Kind.reservedWords) :
      Matches (c :: s) (.token .identifier .nil)
  | symbol {lexeme : Bytes} {kind : Token.Kind} (hsymbol : (lexeme, kind) ∈ symbols) :
      Matches lexeme (.token kind .nil)

/-- The lexeme matches, and no longer part of the source from its start on does. -/
structure Longest (lexeme rest : Bytes) (shape : Shape) : Prop where
  matched : Matches lexeme shape
  longest : ∀ longer other, longer <+: lexeme ++ rest → Matches longer other →
    longer.length ≤ lexeme.length

/-- What is skipped with a report: all that is left behind a quote without a partner, and else a
single character where nothing matches. -/
inductive Skips : Bytes → Bytes → Bytes → Prop where
  | unterminated {body : Bytes} (hbody : ∀ b ∈ body, b ≠ 34) :
      Skips (bytes "Unterminated string.") (34 :: body) []
  | unexpected {item rest : Bytes} (hitem : Utf8.Opens item rest)
      (hquote : (item ++ rest).head? ≠ some 34)
      (hnone : ∀ lexeme shape, lexeme <+: item ++ rest → ¬ Matches lexeme shape) :
      Skips (bytes "Unexpected character.") item rest

/-- The line that is reached behind a part of the source. -/
def lineBehind (before : Bytes) : Int :=
  1 + newlines before

/-- The reference tokeniser: the tokens and the reports of a source behind another part of it. -/
inductive Tokenises : Bytes → Bytes → List Token → List Diagnostic → Prop where
  | done (before : Bytes) : Tokenises before [] [.atEnd (lineBehind before)] []
  | layout {before lexeme rest : Bytes} {tokens : List Token} {reports : List Diagnostic}
      (hmatch : Longest lexeme rest .layout)
      (hrest : Tokenises (before ++ lexeme) rest tokens reports) :
      Tokenises before (lexeme ++ rest) tokens reports
  | token {before lexeme rest : Bytes} {kind : Token.Kind} {literal : Literal}
      {tokens : List Token} {reports : List Diagnostic}
      (hmatch : Longest lexeme rest (.token kind literal))
      (hrest : Tokenises (before ++ lexeme) rest tokens reports) :
      Tokenises before (lexeme ++ rest)
        (⟨kind, lexeme, literal, lineBehind (before ++ lexeme)⟩ :: tokens) reports
  | fault {before skipped rest message : Bytes} {tokens : List Token} {reports : List Diagnostic}
      (hskip : Skips message skipped rest)
      (hrest : Tokenises (before ++ skipped) rest tokens reports) :
      Tokenises before (skipped ++ rest) tokens
        (.onLine .syntactic (lineBehind (before ++ skipped)) message :: reports)

/-! ### Matches are scanned -/

theorem first_of_isDigit {c : UInt8} {s : Bytes} (hc : Bytes.isDigit c = true) :
    first c s = number c s := by
  unfold first
  split
  case h_21 => rw [if_pos hc]
  all_goals cases hc

theorem prefix_takeWhile {p : UInt8 → Bool} {run s : Bytes} (hrun : ∀ b ∈ run, p b = true) :
    run <+: (run ++ s).takeWhile p := by
  rw [List.takeWhile_append_of_pos hrun]
  exact List.prefix_append _ _

/-- The piece is no fault, and it takes at least the given bytes. -/
def Piece.Covers (p : Piece) (lexeme : Bytes) : Prop :=
  lexeme <+: p.lexeme ∧ ∀ cause, p.shape ≠ .fault cause

section Covers

variable {c : UInt8} {run : Bytes} (s : Bytes)

theorem covers_operator (long short : Token.Kind) (c : UInt8) (s : Bytes) :
    (operator long short c s).Covers [c] := by
  unfold operator
  split <;> exact ⟨by simp, by simp⟩

theorem covers_slash (c : UInt8) (s : Bytes) : (slash c s).Covers [c] := by
  unfold slash
  split <;> exact ⟨by simp, by simp⟩

theorem covers_comment (hrun : ∀ b ∈ run, b ≠ Bytes.lineFeed) :
    (slash 47 (47 :: (run ++ s))).Covers (47 :: 47 :: run) := by
  have hbegins : run <+: (run ++ s).takeWhile (· != Bytes.lineFeed) :=
    prefix_takeWhile fun b hb => bne_iff_ne.mpr (hrun b hb)
  refine ⟨?_, by simp [slash]⟩
  exact (List.prefix_cons_inj _).mpr ((List.prefix_cons_inj _).mpr hbegins)

theorem covers_word (hrun : ∀ b ∈ run, Bytes.isWordByte b = true) :
    (word c (run ++ s)).Covers (c :: run) :=
  ⟨(List.prefix_cons_inj c).mpr (prefix_takeWhile hrun), by simp [word]⟩

theorem shape_number (c : UInt8) (s : Bytes) :
    ∃ x, (number c s).shape = .token .number (.num x) := by
  unfold number
  dsimp only
  split
  · split <;> exact ⟨_, rfl⟩
  · exact ⟨_, rfl⟩

theorem number_ne_fault (c : UInt8) (s : Bytes) (cause : Fault) :
    (number c s).shape ≠ .fault cause := by
  obtain ⟨x, hx⟩ := shape_number c s
  rw [hx]
  exact Shape.noConfusion

theorem covers_integer (hrun : ∀ b ∈ run, Bytes.isDigit b = true) :
    (number c (run ++ s)).Covers (c :: run) := by
  refine ⟨?_, number_ne_fault c _⟩
  have hwhole : c :: run <+: c :: (run ++ s).takeWhile Bytes.isDigit :=
    (List.prefix_cons_inj c).mpr (prefix_takeWhile hrun)
  refine hwhole.trans ?_
  unfold number
  dsimp only
  split
  · split
    · exact List.prefix_append _ _
    · exact List.prefix_rfl
  · exact List.prefix_rfl

theorem covers_decimal {d : UInt8} {more : Bytes} (hrun : ∀ b ∈ run, Bytes.isDigit b = true)
    (hd : Bytes.isDigit d = true) (hmore : ∀ b ∈ more, Bytes.isDigit b = true) :
    (number c (run ++ 46 :: d :: (more ++ s))).Covers (c :: run ++ 46 :: d :: more) := by
  refine ⟨?_, number_ne_fault c _⟩
  have hnumber := number_fraction (c := c) hrun hd
    (fun _ => List.mem_takeWhile_imp (l := more ++ s)) (stops_dropWhile Bytes.isDigit (more ++ s))
  rw [List.takeWhile_append_dropWhile] at hnumber
  rw [hnumber, List.prefix_append_right_inj, List.prefix_cons_inj, List.prefix_cons_inj]
  exact prefix_takeWhile hmore

theorem string_closed {body : Bytes} (hbody : ∀ b ∈ body, b ≠ 34) (rest : Bytes) :
    string c (body ++ 34 :: rest) =
      ⟨.token .string (.str body), c :: (body ++ [34]), rest⟩ := by
  have hrun : ∀ b ∈ body, (b != 34) = true := fun b hb => bne_iff_ne.mpr (hbody b hb)
  have hstops : Stops (· != 34) (34 :: rest) := by
    intro b hb
    cases hb
    rfl
  simp only [string, takeWhile_run hrun hstops, dropWhile_run hrun hstops, List.cons_append]

theorem string_open {body : Bytes} (hbody : ∀ b ∈ body, b ≠ 34) :
    string c body = ⟨.fault .unterminatedString, c :: body, []⟩ := by
  have hrun : ∀ b ∈ body, (b != 34) = true := fun b hb => bne_iff_ne.mpr (hbody b hb)
  simp only [string, List.takeWhile_eq_self_iff.mpr hrun, List.dropWhile_eq_nil_iff.mpr hrun]

end Covers

/-- A lexeme that is one piece when it stands alone, and part of the first piece of every source
that starts with it. -/
structure Scanned (c : UInt8) (run : Bytes) (shape : Shape) : Prop where
  alone : first c run = ⟨shape, c :: run, []⟩
  covered : ∀ s, (first c (run ++ s)).Covers (c :: run)

theorem scanned_single {c : UInt8} {kind : Token.Kind} (h : ∀ s, first c s = single kind c s) :
    Scanned c [] (.token kind .nil) := by
  refine ⟨h [], fun s => ?_⟩
  rw [h]
  exact ⟨List.prefix_rfl, fun _ => Shape.noConfusion⟩

theorem scanned_short {c : UInt8} {long short : Token.Kind}
    (h : ∀ s, first c s = operator long short c s) : Scanned c [] (.token short .nil) := by
  refine ⟨h [], fun s => ?_⟩
  rw [h]
  exact covers_operator long short c s

theorem scanned_long {c : UInt8} {long short : Token.Kind}
    (h : ∀ s, first c s = operator long short c s) : Scanned c [61] (.token long .nil) := by
  refine ⟨h [61], fun s => ?_⟩
  rw [h]
  exact ⟨List.prefix_rfl, fun _ => Shape.noConfusion⟩

theorem scanned_symbol : ∀ p ∈ symbols, ∃ c run, p.1 = c :: run ∧ Scanned c run (.token p.2 .nil) := by
  have single {c : UInt8} {kind : Token.Kind} (h : ∀ s, first c s = single kind c s) :
      ∃ d run, [c] = d :: run ∧ Scanned d run (.token kind .nil) :=
    ⟨c, [], rfl, scanned_single h⟩
  have short {c : UInt8} {long short : Token.Kind} (h : ∀ s, first c s = operator long short c s) :
      ∃ d run, [c] = d :: run ∧ Scanned d run (.token short .nil) :=
    ⟨c, [], rfl, scanned_short h⟩
  have long {c : UInt8} {long short : Token.Kind} (h : ∀ s, first c s = operator long short c s) :
      ∃ d run, [c, 61] = d :: run ∧ Scanned d run (.token long .nil) :=
    ⟨c, [61], rfl, scanned_long h⟩
  simp only [symbols, List.forall_mem_cons]
  exact ⟨single fun _ => rfl, single fun _ => rfl, single fun _ => rfl, single fun _ => rfl,
    single fun _ => rfl, single fun _ => rfl, single fun _ => rfl, single fun _ => rfl,
    single fun _ => rfl, ⟨47, [], rfl, rfl, covers_slash 47⟩, single fun _ => rfl,
    short fun _ => rfl, long fun _ => rfl, short fun _ => rfl, long fun _ => rfl,
    short fun _ => rfl, long fun _ => rfl, short fun _ => rfl, long fun _ => rfl, by simp⟩

theorem ofWord_of_mem {word : Bytes} {kind : Token.Kind}
    (h : (word, kind) ∈ Token.Kind.reservedWords) : Token.Kind.ofWord word = kind := by
  have hall : ∀ p ∈ Token.Kind.reservedWords, Token.Kind.ofWord p.1 = p.2 := by decide
  exact hall _ h

theorem ofWord_eq_identifier {word : Bytes}
    (h : ∀ kind, (word, kind) ∉ Token.Kind.reservedWords) :
    Token.Kind.ofWord word = .identifier := by
  by_contra hkind
  exact h _ (mem_reservedWords_of_ofWord rfl hkind)

theorem scanned_word {c : UInt8} {run : Bytes} (hc : Bytes.isLetter c = true)
    (hrun : ∀ b ∈ run, Bytes.isWordByte b = true) :
    Scanned c run (.token (.ofWord (c :: run)) .nil) := by
  refine ⟨?_, fun s => ?_⟩
  · rw [first_of_isLetter hc]
    simpa using word_append (c := c) (q := []) hrun (by simp [Stops])
  · rw [first_of_isLetter hc]
    exact covers_word s hrun

theorem Matches.scanned {lexeme : Bytes} {shape : Shape} (h : Matches lexeme shape) :
    ∃ c run, lexeme = c :: run ∧ Scanned c run shape := by
  cases h with
  | @blank b hb =>
      have hfirst : ∀ s, first b s = ⟨.layout, [b], s⟩ := by
        intro s
        simp only [List.mem_cons, List.not_mem_nil, or_false] at hb
        rcases hb with rfl | rfl | rfl | rfl <;> rfl
      refine ⟨b, [], rfl, hfirst [], fun s => ?_⟩
      rw [hfirst]
      exact ⟨List.prefix_rfl, fun _ => Shape.noConfusion⟩
  | @comment text htext =>
      have hrun : ∀ b ∈ text, (b != Bytes.lineFeed) = true :=
        fun b hb => bne_iff_ne.mpr (htext b hb)
      refine ⟨47, 47 :: text, rfl, ?_, fun s => covers_comment s htext⟩
      change slash 47 (47 :: text) = _
      simp only [slash, List.takeWhile_eq_self_iff.mpr hrun, List.dropWhile_eq_nil_iff.mpr hrun]
  | @string body hbody =>
      refine ⟨34, body ++ [34], rfl, string_closed hbody [], fun s => ?_⟩
      have hstring : first 34 (body ++ [34] ++ s) = _ :=
        (congrArg (first 34) (List.append_assoc body [34] s)).trans (string_closed hbody s)
      rw [hstring]
      exact ⟨List.prefix_rfl, fun _ => Shape.noConfusion⟩
  | @integer digits hsome hdigits =>
      obtain ⟨c, run, rfl⟩ := List.exists_cons_of_ne_nil hsome
      rw [List.forall_mem_cons] at hdigits
      refine ⟨c, run, rfl, ?_, fun s => ?_⟩
      · rw [first_of_isDigit hdigits.1]
        simpa using number_whole (c := c) (s := []) hdigits.2 (by simp [Stops]) (by simp)
      · rw [first_of_isDigit hdigits.1]
        exact covers_integer s hdigits.2
  | @decimal whole fraction hwhole hfraction hdigits =>
      obtain ⟨c, run, rfl⟩ := List.exists_cons_of_ne_nil hwhole
      obtain ⟨d, more, rfl⟩ := List.exists_cons_of_ne_nil hfraction
      simp only [List.cons_append, List.forall_mem_cons, List.forall_mem_append] at hdigits
      obtain ⟨hc, hrun, hd, hmore⟩ := hdigits
      refine ⟨c, run ++ 46 :: d :: more, rfl, ?_, fun s => ?_⟩
      · rw [first_of_isDigit hc]
        simpa using number_fraction (c := c) (s := []) hrun hd hmore (by simp [Stops])
      · rw [first_of_isDigit hc]
        simpa using covers_decimal (c := c) s hrun hd hmore
  | @keyword c s kind hc hs hword =>
      exact ⟨c, s, rfl, ofWord_of_mem hword ▸ scanned_word hc hs⟩
  | @identifier c s hc hs hword =>
      exact ⟨c, s, rfl, ofWord_eq_identifier hword ▸ scanned_word hc hs⟩
  | symbol hsymbol => exact scanned_symbol _ hsymbol

/-! ### Pieces are matches -/

theorem Matches.unique {lexeme : Bytes} {shape other : Shape} (h : Matches lexeme shape)
    (hother : Matches lexeme other) : shape = other := by
  obtain ⟨c, run, hlexeme, hscanned⟩ := h.scanned
  obtain ⟨d, tail, hagain, hscanned'⟩ := hother.scanned
  obtain ⟨rfl, rfl⟩ := List.cons.inj (hlexeme.symm.trans hagain)
  have halone := hscanned.alone.symm.trans hscanned'.alone
  exact congrArg Piece.shape halone

theorem covers_of_matches {c : UInt8} {s lexeme : Bytes} {shape : Shape} (h : Matches lexeme shape)
    (hbegins : lexeme <+: c :: s) : (first c s).Covers lexeme := by
  obtain ⟨d, run, rfl, hscanned⟩ := h.scanned
  obtain ⟨later, hlater⟩ := hbegins
  obtain ⟨rfl, rfl⟩ := List.cons.inj hlater
  exact hscanned.covered later

/-- A fault is skipped for a reason, and every other piece matches. -/
def Piece.Justified (p : Piece) : Prop :=
  match p.shape with
  | .fault cause => Skips cause.message p.lexeme p.rest
  | shape => Matches p.lexeme shape

theorem justified_single {c : UInt8} {kind : Token.Kind} (s : Bytes) (h : ([c], kind) ∈ symbols) :
    (single kind c s).Justified :=
  Matches.symbol h

theorem justified_operator {c : UInt8} {long short : Token.Kind} (s : Bytes)
    (hlong : ([c, 61], long) ∈ symbols) (hshort : ([c], short) ∈ symbols) :
    (operator long short c s).Justified := by
  unfold operator
  split
  · exact Matches.symbol hlong
  · exact Matches.symbol hshort

theorem ne_of_mem_takeWhile {d : UInt8} {s : Bytes} : ∀ b ∈ s.takeWhile (· != d), b ≠ d := by
  intro b hb
  exact bne_iff_ne.mp (List.mem_takeWhile_imp (p := (· != d)) hb)

theorem justified_slash (s : Bytes) : (slash 47 s).Justified := by
  have hslash : ([47], Token.Kind.slash) ∈ symbols := by decide
  unfold slash
  split
  · exact Matches.comment ne_of_mem_takeWhile
  · exact Matches.symbol hslash

theorem justified_string (s : Bytes) : (string 34 s).Justified := by
  have hquote := List.head?_dropWhile_not (· != 34) s
  unfold string
  dsimp only
  split
  case h_1 => exact Skips.unterminated ne_of_mem_takeWhile
  case h_2 quote rest heq =>
    rw [heq] at hquote
    obtain rfl : quote = 34 := by simpa using hquote
    exact Matches.string ne_of_mem_takeWhile

theorem justified_number {c : UInt8} (hc : Bytes.isDigit c = true) (s : Bytes) :
    (number c s).Justified := by
  rcases number_cases s with ⟨run, t, rfl, hrun, ht, hpoint⟩ |
    ⟨run, d, more, t, rfl, hrun, hd, hmore, ht⟩
  · rw [number_whole hrun ht hpoint]
    exact Matches.integer (List.cons_ne_nil c run) (List.forall_mem_cons.mpr ⟨hc, hrun⟩)
  · rw [number_fraction hrun hd hmore ht]
    refine Matches.decimal (List.cons_ne_nil c run) (List.cons_ne_nil d more) ?_
    rw [List.forall_mem_append, List.forall_mem_cons, List.forall_mem_cons]
    exact ⟨⟨hc, hrun⟩, hd, hmore⟩

theorem matches_word {c : UInt8} {run : Bytes} (hc : Bytes.isLetter c = true)
    (hrun : ∀ b ∈ run, Bytes.isWordByte b = true) :
    Matches (c :: run) (.token (.ofWord (c :: run)) .nil) := by
  by_cases hword : ∃ kind, (c :: run, kind) ∈ Token.Kind.reservedWords
  · obtain ⟨kind, hkind⟩ := hword
    rw [ofWord_of_mem hkind]
    exact .keyword hc hrun hkind
  · have hnone : ∀ kind, (c :: run, kind) ∉ Token.Kind.reservedWords := not_exists.mp hword
    rw [ofWord_eq_identifier hnone]
    exact .identifier hc hrun hnone

theorem justified_unexpected {c : UInt8} {s : Bytes} (hc : c ≠ 34)
    (hfirst : first c s = unexpected c s) : (unexpected c s).Justified := by
  have hsplit : (unexpected c s).lexeme ++ (unexpected c s).rest = c :: s :=
    List.take_append_drop _ _
  refine Skips.unexpected (Utf8.opens_width (List.cons_ne_nil c s)) ?_ fun lexeme shape h hmatch => ?_
  · rw [hsplit]
    exact fun heq => hc (Option.some.inj heq)
  · rw [hsplit] at h
    have hcovers := covers_of_matches hmatch h
    rw [hfirst] at hcovers
    exact hcovers.2 .unexpectedCharacter rfl

theorem first_justified (c : UInt8) (s : Bytes) : (first c s).Justified := by
  generalize hfirst : first c s = p
  have hp := hfirst
  unfold first at hp
  split at hp
  case h_21 hquote =>
    split at hp
    case isTrue hc => exact hp ▸ justified_number hc s
    case isFalse =>
      split at hp
      case isTrue hc => exact hp ▸ matches_word hc fun _ => List.mem_takeWhile_imp
      case isFalse => exact hp ▸ justified_unexpected (fun hc => hquote hc) (hfirst.trans hp.symm)
  case h_11 => exact hp ▸ justified_slash s
  case h_12 | h_13 | h_14 | h_15 =>
    exact hp ▸ justified_operator s (by decide) (by decide)
  case h_16 | h_17 | h_18 | h_19 => exact hp ▸ Matches.blank (by decide)
  case h_20 => exact hp ▸ justified_string s
  all_goals exact hp ▸ justified_single s (by decide)

theorem matches_first {c : UInt8} {s : Bytes} (h : ∀ cause, (first c s).shape ≠ .fault cause) :
    Matches (first c s).lexeme (first c s).shape := by
  have hjustified := first_justified c s
  unfold Piece.Justified at hjustified
  split at hjustified
  case h_1 cause hcause => exact absurd hcause (h cause)
  case h_2 => exact hjustified

theorem longest_first {c : UInt8} {s : Bytes} (h : ∀ cause, (first c s).shape ≠ .fault cause) :
    Longest (first c s).lexeme (first c s).rest (first c s).shape := by
  refine ⟨matches_first h, fun longer other hbegins hmatch => ?_⟩
  rw [first_lexeme_append_rest] at hbegins
  exact (covers_of_matches hmatch hbegins).1.length_le

theorem skips_first {c : UInt8} {s : Bytes} {cause : Fault}
    (h : (first c s).shape = .fault cause) :
    Skips cause.message (first c s).lexeme (first c s).rest := by
  have hjustified := first_justified c s
  rw [Piece.Justified, h] at hjustified
  exact hjustified

/-! ### The first piece is the only choice -/

theorem Longest.first_eq {lexeme rest s : Bytes} {c : UInt8} {shape : Shape}
    (h : Longest lexeme rest shape) (hs : lexeme ++ rest = c :: s) :
    first c s = ⟨shape, lexeme, rest⟩ := by
  have hcovers : (first c s).Covers lexeme :=
    covers_of_matches h.matched ⟨rest, hs⟩
  have hfirst := matches_first hcovers.2
  have hsplit := first_lexeme_append_rest c s
  have hle : (first c s).lexeme.length ≤ lexeme.length :=
    h.longest _ _ (hs ▸ ⟨_, hsplit⟩) hfirst
  have hlexeme : lexeme = (first c s).lexeme := hcovers.1.eq_of_length_le hle
  have hshape : shape = (first c s).shape := h.matched.unique (hlexeme ▸ hfirst)
  have hrest : rest = (first c s).rest := by
    rw [← hsplit, hlexeme] at hs
    exact List.append_cancel_left hs
  rw [hlexeme, hshape, hrest]

theorem Skips.cause {cause : Fault} {skipped rest : Bytes}
    (h : Skips cause.message skipped rest) :
    cause = .unterminatedString ∧ skipped.head? = some 34 ∨
      cause = .unexpectedCharacter ∧ Utf8.Opens skipped rest := by
  have hne : Fault.message .unterminatedString ≠ Fault.message .unexpectedCharacter := by decide
  generalize hmessage : cause.message = message at h
  cases h with
  | unterminated _ =>
      cases cause with
      | unterminatedString => exact .inl ⟨rfl, rfl⟩
      | unexpectedCharacter => exact absurd hmessage.symm hne
  | unexpected hitem _ _ =>
      cases cause with
      | unterminatedString => exact absurd hmessage hne
      | unexpectedCharacter => exact .inr ⟨rfl, hitem⟩

theorem first_unexpected {c : UInt8} {s : Bytes} (hc : c ≠ 34)
    (hnone : ∀ lexeme shape, lexeme <+: c :: s → ¬ Matches lexeme shape) :
    (first c s).shape = .fault .unexpectedCharacter ∧
      Utf8.Opens (first c s).lexeme (first c s).rest := by
  have hsplit := first_lexeme_append_rest c s
  obtain ⟨cause, hcause⟩ : ∃ cause, (first c s).shape = .fault cause := by
    by_contra hshape
    exact hnone _ _ ⟨_, hsplit⟩ (matches_first (not_exists.mp hshape))
  rcases (skips_first hcause).cause with ⟨-, hhead⟩ | ⟨rfl, hitem⟩
  · obtain ⟨body, hbody⟩ := List.head?_eq_some_iff.mp hhead
    rw [hbody] at hsplit
    exact absurd (List.cons.inj hsplit).1.symm hc
  · exact ⟨hcause, hitem⟩

theorem Skips.first_eq {message skipped rest s : Bytes} {c : UInt8}
    (h : Skips message skipped rest) (hs : skipped ++ rest = c :: s) :
    ∃ cause : Fault, message = cause.message ∧ first c s = ⟨.fault cause, skipped, rest⟩ := by
  cases h with
  | @unterminated body hbody =>
      rw [List.append_nil] at hs
      obtain ⟨rfl, rfl⟩ := List.cons.inj hs
      exact ⟨.unterminatedString, rfl, string_open hbody⟩
  | unexpected hitem hquote hnone =>
      rw [hs] at hquote hnone
      obtain ⟨hshape, hfirst⟩ := first_unexpected (fun hc => hquote (congrArg some hc)) hnone
      have hsplit := first_lexeme_append_rest c s
      have hlength : skipped.length = (first c s).lexeme.length := by
        rw [hitem.length_eq, hfirst.length_eq, hs, hsplit]
      obtain ⟨hlexeme, hrest⟩ := List.append_inj (hs.trans hsplit.symm) hlength
      refine ⟨.unexpectedCharacter, rfl, ?_⟩
      rw [hlexeme, hrest, ← hshape]

/-! ### The reference tokeniser -/

theorem newlines_append (s t : Bytes) : newlines (s ++ t) = newlines s + newlines t := by
  simp [newlines]

theorem lineBehind_append (before lexeme : Bytes) :
    lineBehind (before ++ lexeme) = lineBehind before + newlines lexeme := by
  rw [lineBehind, lineBehind, newlines_append, Int.add_assoc]

theorem listing_followedBy (scan later : Scan) :
    (scan.followedBy later).listing = scan.tokens ++ later.listing :=
  List.append_assoc _ _ _

theorem diagnostics_followedBy (scan later : Scan) :
    (scan.followedBy later).diagnostics = scan.diagnostics ++ later.diagnostics :=
  List.map_append

theorem scan_piece (shape : Shape) (before lexeme rest : Bytes) :
    (⟨shape, lexeme, rest⟩ : Piece).scan (lineBehind before) =
      let line := lineBehind (before ++ lexeme)
      match shape with
      | .layout => ⟨[], [], line⟩
      | .token kind literal => ⟨[⟨kind, lexeme, literal, line⟩], [], line⟩
      | .fault cause => ⟨[], [⟨cause, line⟩], line⟩ := by
  rw [Piece.scan, ← lineBehind_append]
  cases shape <;> rfl

/-- A piece and the scan behind it, in terms of what has been read before. -/
theorem onward_first {c : UInt8} {s lexeme rest : Bytes} {shape : Shape}
    (hs : lexeme ++ rest = c :: s) (h : first c s = ⟨shape, lexeme, rest⟩) (before : Bytes) :
    onward (lineBehind before) (lexeme ++ rest) =
      ((⟨shape, lexeme, rest⟩ : Piece).scan (lineBehind before)).followedBy
        (onward (lineBehind (before ++ lexeme)) rest) := by
  rw [hs, onward_cons, h, lineBehind_append]

theorem Longest.onward_eq {lexeme rest : Bytes} {shape : Shape} (h : Longest lexeme rest shape)
    (before : Bytes) :
    onward (lineBehind before) (lexeme ++ rest) =
      ((⟨shape, lexeme, rest⟩ : Piece).scan (lineBehind before)).followedBy
        (onward (lineBehind (before ++ lexeme)) rest) := by
  obtain ⟨c, run, hlexeme, -⟩ := h.matched.scanned
  have hs : lexeme ++ rest = c :: (run ++ rest) := by rw [hlexeme, List.cons_append]
  exact onward_first hs (h.first_eq hs) before

theorem Skips.ne_nil {message skipped rest : Bytes} (h : Skips message skipped rest) :
    skipped ≠ [] := by
  cases h with
  | unterminated _ => exact List.cons_ne_nil _ _
  | unexpected hitem _ _ => exact hitem.ne_nil

theorem Skips.onward_eq {message skipped rest : Bytes} (h : Skips message skipped rest)
    (before : Bytes) :
    ∃ cause : Fault, message = cause.message ∧
      onward (lineBehind before) (skipped ++ rest) =
        ((⟨.fault cause, skipped, rest⟩ : Piece).scan (lineBehind before)).followedBy
          (onward (lineBehind (before ++ skipped)) rest) := by
  obtain ⟨c, s, hs⟩ := List.exists_cons_of_ne_nil (List.append_ne_nil_of_left_ne_nil h.ne_nil rest)
  obtain ⟨cause, hmessage, hfirst⟩ := h.first_eq hs
  exact ⟨cause, hmessage, onward_first hs hfirst before⟩

theorem Tokenises.eq_scan {before s : Bytes} {tokens : List Token} {reports : List Diagnostic}
    (h : Tokenises before s tokens reports) :
    tokens = (onward (lineBehind before) s).listing ∧
      reports = (onward (lineBehind before) s).diagnostics := by
  induction h with
  | done before => simp [onward, listing, eof, diagnostics]
  | @layout before lexeme rest tokens reports hmatch hrest ih =>
      rw [hmatch.onward_eq, listing_followedBy, diagnostics_followedBy, scan_piece]
      exact ih
  | @token before lexeme rest kind literal tokens reports hmatch hrest ih =>
      rw [hmatch.onward_eq, listing_followedBy, diagnostics_followedBy, scan_piece, ih.1]
      exact ⟨rfl, ih.2⟩
  | @fault before skipped rest message tokens reports hskip hrest ih =>
      obtain ⟨cause, rfl, hscan⟩ := hskip.onward_eq before
      rw [hscan, listing_followedBy, diagnostics_followedBy, scan_piece, ih.2]
      exact ⟨ih.1, rfl⟩

/-- The scanner's own pieces are a way to tokenise the source. -/
theorem tokenises_onward (before s : Bytes) :
    Tokenises before s (onward (lineBehind before) s).listing
      (onward (lineBehind before) s).diagnostics := by
  induction s using pieces.induct generalizing before with
  | case1 =>
      have hdone := Tokenises.done before
      simpa [onward, listing, eof, diagnostics] using hdone
  | case2 c s ih =>
      have hsplit := first_lexeme_append_rest c s
      have hlongest := longest_first (c := c) (s := s)
      have hskips := @skips_first c s
      generalize hfirst : first c s = p at hsplit hlongest hskips ih
      obtain ⟨shape, lexeme, rest⟩ := p
      have hrest := ih (before ++ lexeme)
      rw [← hsplit, onward_first hsplit hfirst, listing_followedBy, diagnostics_followedBy,
        scan_piece]
      cases shape with
      | layout => exact .layout (hlongest fun _ => Shape.noConfusion) hrest
      | token kind literal => exact .token (hlongest fun _ => Shape.noConfusion) hrest
      | fault cause => exact .fault (hskips rfl) hrest

theorem Matches.kind_ne_eof {lexeme : Bytes} {kind : Token.Kind} {literal : Literal}
    (h : Matches lexeme (.token kind literal)) : kind ≠ .eof := by
  have hwords : ∀ p ∈ Token.Kind.reservedWords, p.2 ≠ .eof := by decide
  have hsymbols : ∀ p ∈ symbols, p.2 ≠ .eof := by decide
  cases h with
  | string | integer | decimal | identifier => exact Token.Kind.noConfusion
  | keyword _ _ hword => exact hwords _ hword
  | symbol hsymbol => exact hsymbols _ hsymbol

theorem Tokenises.kind_ne_eof {before s : Bytes} {tokens : List Token} {reports : List Diagnostic}
    (h : Tokenises before s tokens reports) :
    ∃ read, tokens = read ++ [.atEnd (lineBehind (before ++ s))] ∧ ∀ t ∈ read, t.kind ≠ .eof := by
  induction h with
  | done before => exact ⟨[], by simp, by simp⟩
  | @layout before lexeme rest tokens reports hmatch hrest ih =>
      rw [List.append_assoc] at ih
      exact ih
  | @token before lexeme rest kind literal tokens reports hmatch hrest ih =>
      obtain ⟨read, rfl, hread⟩ := ih
      refine ⟨⟨kind, lexeme, literal, lineBehind (before ++ lexeme)⟩ :: read, ?_, ?_⟩
      · rw [List.append_assoc, List.cons_append]
      · exact List.forall_mem_cons.mpr ⟨hmatch.matched.kind_ne_eof, hread⟩
  | @fault before skipped rest message tokens reports hskip hrest ih =>
      rw [List.append_assoc] at ih
      exact ih

/-- Scanning is longest match: there is exactly one way to tokenise a source, and the scanner finds
it. The end of input is the last token and no other one. -/
theorem source_longest_match (s : Bytes) :
    (∀ tokens reports, Tokenises [] s tokens reports ↔
      tokens = (source s).listing ∧ reports = (source s).diagnostics) ∧
    (source s).listing = (source s).tokens ++ [.atEnd (lineBehind s)] ∧
    ∀ t ∈ (source s).tokens, t.kind ≠ .eof := by
  have hsource : source s = onward (lineBehind []) s := rfl
  have hscanned := tokenises_onward [] s
  rw [← hsource] at hscanned
  refine ⟨fun tokens reports => ⟨fun h => ?_, ?_⟩, ?_⟩
  · rw [hsource]
    exact h.eq_scan
  · rintro ⟨rfl, rfl⟩
    exact hscanned
  · obtain ⟨read, htokens, hread⟩ := hscanned.kind_ne_eof
    have hlast : (source s).tokens = read ∧ (source s).eof = .atEnd (lineBehind s) := by
      simpa [listing] using htokens
    rw [listing, hlast.2, hlast.1]
    exact ⟨rfl, hread⟩

end Lox.Scan
