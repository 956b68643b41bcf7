import Lox.Proofs.Grammar.Braces
import Lox.Proofs.Parser.Accepts
import Lox.Proofs.Token.Lines
import Lox.Shell.Command

/-!
# Blocks at the prompt

The prompt runs what it has gathered as soon as no block is open. In a program without faults no
beginning closes more blocks than it opens, so the prompt cuts it between two lines where all blocks
are closed, and nowhere else.
-/

namespace Lox

namespace Scan

/-- No string is left open. -/
def Closed (s : Bytes) : Prop :=
  ∀ e ∈ (source s).errors, e.cause ≠ .unterminatedString

/-- Every string ends on the line on which it begins. -/
structure Lineal (s : Bytes) : Prop where
  closed : Closed s
  strings : ∀ t ∈ (source s).tokens, ∀ text, t.literal = .str text → Bytes.lineFeed ∉ text

/-! ### Strings on one line -/

theorem unterminated_first {c : UInt8} {s : Bytes}
    (h : (first c s).shape = .fault .unterminatedString) : c = 34 ∧ ∀ b ∈ s, b ≠ 34 := by
  have hsplit := first_lexeme_append_rest c s
  have hskips := skips_first h
  generalize hmessage : Fault.message .unterminatedString = message at hskips
  generalize hlexeme : (first c s).lexeme = lexeme at hskips hsplit
  generalize hrest : (first c s).rest = rest at hskips hsplit
  cases hskips with
  | unterminated hbody =>
      rw [List.append_nil] at hsplit
      obtain ⟨rfl, rfl⟩ := List.cons.inj hsplit
      exact ⟨rfl, hbody⟩
  | unexpected _ _ _ =>
      have hne : Fault.message .unterminatedString ≠ bytes "Unexpected character." := by decide
      exact absurd hmessage hne

/-- Behind a quote without a partner on its line there is no end of the string, or one on a later
line. -/
theorem first_quote_newline {s : Bytes} (hs : ∀ b ∈ s, b ≠ 34) (q : Bytes) :
    (first 34 (s ++ 10 :: q)).shape = .fault .unterminatedString ∨
      ∃ text, (first 34 (s ++ 10 :: q)).shape = .token .string (.str text) ∧
        Bytes.lineFeed ∈ text := by
  change (string 34 (s ++ 10 :: q)).shape = _ ∨
    ∃ text, (string 34 (s ++ 10 :: q)).shape = _ ∧ Bytes.lineFeed ∈ text
  have hrun : ∀ b ∈ s, (b != 34) = true := fun b hb => bne_iff_ne.mpr (hs b hb)
  unfold string
  split
  case h_1 => exact .inl rfl
  case h_2 =>
    refine .inr ⟨_, rfl, ?_⟩
    rw [List.takeWhile_append_of_pos hrun]
    simp [Bytes.lineFeed]

/-- A string that is open in front of a line feed stays open or goes past the line feed. -/
theorem closed_of_newline {line : Int} {s q : Bytes}
    (hclosed : ∀ e ∈ (onward line (s ++ 10 :: q)).errors, e.cause ≠ .unterminatedString)
    (hstrings : ∀ t ∈ (onward line (s ++ 10 :: q)).tokens, ∀ text, t.literal = .str text →
      Bytes.lineFeed ∉ text) :
    ∀ e ∈ (onward line s).errors, e.cause ≠ .unterminatedString := by
  induction s using pieces.induct generalizing line with
  | case1 => simp [onward]
  | case2 c s ih =>
      by_cases hshape : (first c s).shape = .fault .unterminatedString
      · obtain ⟨rfl, hs⟩ := unterminated_first hshape
        rw [List.cons_append, onward_cons, followedBy, List.forall_mem_append] at hclosed hstrings
        rcases first_quote_newline hs q with hopen | ⟨text, htext, hmem⟩
        · simp [Piece.scan, Piece.error?, hopen] at hclosed
        · have hnone := hstrings.1
          simp only [Piece.scan, Piece.token?, htext] at hnone
          exact absurd hmem (hnone _ (List.mem_singleton.mpr rfl) text rfl)
      · have hfirst := first_newline c s q hshape
        rw [List.cons_append, onward_cons, hfirst, followedBy, List.forall_mem_append]
          at hclosed hstrings
        rw [onward_cons, followedBy, List.forall_mem_append]
        refine ⟨?_, ih hclosed.2 hstrings.2⟩
        intro e he hcause
        exact hclosed.1 e he hcause

theorem Lineal.of_line {s q : Bytes} (h : Lineal (Bytes.line s ++ q)) : Closed s ∧ Lineal q := by
  have hline : Bytes.line s ++ q = s ++ 10 :: q := by simp [Bytes.line, Bytes.lineFeed]
  have hs : Closed s := by
    have hclosed := h.closed
    have hstrings := h.strings
    rw [hline] at hclosed hstrings
    exact closed_of_newline hclosed hstrings
  have hscan := source_line hs q
  have hclosed := h.closed
  have hstrings := h.strings
  rw [Closed, hscan, followedBy, List.forall_mem_append] at hclosed
  rw [hscan, followedBy, List.forall_mem_append] at hstrings
  refine ⟨hs, fun e he => ?_, fun t ht => ?_⟩
  · exact hclosed.2 (e.renumber _) (List.mem_map_of_mem he)
  · exact hstrings.2 (t.renumber _) (List.mem_map_of_mem ht)

/-- A line feed behind the source adds nothing to it. -/
theorem Lineal.line {s : Bytes} (h : Lineal s) :
    (source (Bytes.line s)).tokens = (source s).tokens ∧ Lineal (Bytes.line s) := by
  have hscan := source_line h.closed []
  rw [List.append_nil] at hscan
  have htokens : (source (Bytes.line s)).tokens = (source s).tokens := by
    rw [hscan]
    simp [followedBy, Scan.renumber, source, onward]
  have herrors : (source (Bytes.line s)).errors = (source s).errors := by
    rw [hscan]
    simp [followedBy, Scan.renumber, source, onward]
  refine ⟨htokens, ?_, ?_⟩
  · rw [Closed, herrors]
    exact h.closed
  · rw [htokens]
    exact h.strings

theorem renumber_renumber (f g : Int → Int) (scan : Scan) :
    (scan.renumber g).renumber f = scan.renumber (f ∘ g) := by
  simp only [Scan.renumber, List.map_map]
  rfl

end Scan

namespace Prompt

open Scan Grammar

/-- Lines as one text. -/
def text (lines : List Bytes) : Bytes :=
  lines.flatMap Bytes.line

/-- The blocks that lines leave open. -/
def openAfter (lines : List Bytes) : Int :=
  (Scan.source (text lines)).openBlocks

/-- Lines behind which all blocks are closed, for the first time. -/
structure Complete (lines : List Bytes) : Prop where
  nonempty : lines ≠ []
  whole : openAfter lines = 0
  beginnings : ∀ begin, begin <+: lines → begin ≠ [] → begin ≠ lines → 0 < openAfter begin

/-! ### Lines are scanned one by one -/

theorem closed_of_lineal {lines : List Bytes} (h : Lineal (text lines)) :
    ∀ line ∈ lines, Closed line := by
  induction lines with
  | nil => exact List.forall_mem_nil _
  | cons line lines ih =>
      obtain ⟨hline, hlines⟩ := h.of_line
      exact List.forall_mem_cons.mpr ⟨hline, ih hlines⟩

theorem source_text_append {lines : List Bytes} (h : ∀ line ∈ lines, Closed line)
    (more : List Bytes) :
    ∃ g : Int → Int, Scan.source (text (lines ++ more)) =
      (Scan.source (text lines)).followedBy ((Scan.source (text more)).renumber g) := by
  induction lines with
  | nil =>
      refine ⟨(· + 0), (onward_add 1 0 (text more)).trans ?_⟩
      simp [text, Scan.source, onward, followedBy]
  | cons line lines ih =>
      obtain ⟨hline, hlines⟩ := List.forall_mem_cons.mp h
      obtain ⟨g, hg⟩ := ih hlines
      refine ⟨(· + (1 + newlines line)) ∘ g, ?_⟩
      change Scan.source (Bytes.line line ++ text (lines ++ more)) =
        (Scan.source (Bytes.line line ++ text lines)).followedBy _
      rw [source_line hline, source_line hline, hg, followedBy_renumber, followedBy_assoc,
        renumber_renumber]

theorem openAfter_append {lines : List Bytes} (h : ∀ line ∈ lines, Closed line)
    (more : List Bytes) : openAfter (lines ++ more) = openAfter lines + openAfter more := by
  obtain ⟨g, hg⟩ := source_text_append h more
  rw [openAfter, hg, openBlocks_followedBy, openBlocks_renumber]
  rfl

theorem openAfter_nonneg {lines begin : List Bytes} (h : ∀ line ∈ lines, Closed line)
    (hbalanced : Balanced (Scan.source (text lines)).tokens) (hbegin : begin <+: lines) :
    0 ≤ openAfter begin := by
  obtain ⟨more, rfl⟩ := hbegin
  obtain ⟨g, hg⟩ := source_text_append (List.forall_mem_append.mp h).1 more
  rw [hg] at hbalanced
  exact hbalanced.beginnings _ (List.prefix_append _ _)

/-! ### Gathering lines -/

theorem feed_line (pending : List Bytes) (line : Bytes) :
    (Prompt.mk (text pending)).feed (.line line) =
      if 0 < openAfter (pending ++ [line]) then (⟨text (pending ++ [line])⟩, none)
      else (.empty, some (text (pending ++ [line]))) := by
  have htext : text pending ++ Bytes.line line = text (pending ++ [line]) := by
    simp [text]
  rw [feed, htext]
  rfl

/-- The invariant of the prompt: what is pending leaves blocks open from its first line on, and what is
still to come closes them all. -/
structure Gathering (pending lines : List Bytes) : Prop where
  closed : ∀ line ∈ pending ++ lines, Closed line
  opens : ∀ begin, begin <+: pending → begin ≠ [] → 0 < openAfter begin
  least : ∀ begin, begin <+: lines → 0 ≤ openAfter (pending ++ begin)
  whole : openAfter (pending ++ lines) = 0

namespace Gathering

variable {pending lines : List Bytes} {line : Bytes}

theorem start (hclosed : ∀ line ∈ lines, Closed line)
    (hbalanced : Balanced (Scan.source (text lines)).tokens) : Gathering [] lines where
  closed := hclosed
  opens _ hbegin hne := absurd (List.prefix_nil.mp hbegin) hne
  least _ hbegin := openAfter_nonneg hclosed hbalanced hbegin
  whole := hbalanced.whole

/-- Behind the last line nothing is pending. -/
theorem pending_eq_nil (h : Gathering pending []) : pending = [] := by
  by_contra hne
  have hopen := h.opens pending List.prefix_rfl hne
  have hwhole := h.whole
  rw [List.append_nil] at hwhole
  omega

/-- While blocks are open, the next line joins what is pending. -/
theorem goesOn (h : Gathering pending (line :: lines))
    (hopen : 0 < openAfter (pending ++ [line])) : Gathering (pending ++ [line]) lines where
  closed := by
    rw [List.append_assoc]
    exact h.closed
  opens begin hbegin hne := by
    rcases List.prefix_concat_iff.mp hbegin with rfl | hbegin
    · exact hopen
    · exact h.opens begin hbegin hne
  least begin hbegin := by
    rw [List.append_assoc]
    exact h.least (line :: begin) (List.cons_prefix_cons.mpr ⟨rfl, hbegin⟩)
  whole := by
    rw [List.append_assoc]
    exact h.whole

theorem eq_zero_of_not_open (h : Gathering pending (line :: lines))
    (hends : ¬0 < openAfter (pending ++ [line])) : openAfter (pending ++ [line]) = 0 := by
  have hleast := h.least [line] (List.cons_prefix_cons.mpr ⟨rfl, List.nil_prefix⟩)
  omega

theorem complete (h : Gathering pending (line :: lines))
    (hends : ¬0 < openAfter (pending ++ [line])) : Complete (pending ++ [line]) where
  nonempty := List.append_ne_nil_of_right_ne_nil _ (List.cons_ne_nil _ _)
  whole := h.eq_zero_of_not_open hends
  beginnings begin hbegin hne hproper := by
    rcases List.prefix_concat_iff.mp hbegin with rfl | hbegin
    · exact absurd rfl hproper
    · exact h.opens begin hbegin hne

/-- Where no block is open any more, gathering starts anew. -/
theorem rest (h : Gathering pending (line :: lines))
    (hends : ¬0 < openAfter (pending ++ [line])) : Gathering [] lines := by
  have hsplit (more : List Bytes) : pending ++ line :: more = (pending ++ [line]) ++ more := by
    simp
  have hclosed := h.closed
  rw [hsplit, List.forall_mem_append] at hclosed
  -- What the group has opened it has closed, so it counts for nothing behind it.
  have hbehind (more : List Bytes) : openAfter (pending ++ line :: more) = openAfter more := by
    rw [hsplit, openAfter_append hclosed.1, h.eq_zero_of_not_open hends, Int.zero_add]
  refine ⟨hclosed.2, ?_, ?_, ?_⟩
  · intro begin hbegin hne
    exact absurd (List.prefix_nil.mp hbegin) hne
  · intro begin hbegin
    have hleast := h.least (line :: begin) (List.cons_prefix_cons.mpr ⟨rfl, hbegin⟩)
    rwa [hbehind] at hleast
  · have hwhole := h.whole
    rwa [hbehind] at hwhole

end Gathering

theorem chunks_of_gathering {pending lines : List Bytes} (h : Gathering pending lines) :
    ∃ groups : List (List Bytes), groups.flatten = pending ++ lines ∧
      (∀ group ∈ groups, Complete group) ∧
      (Prompt.mk (text pending)).chunks (lines.map .line) = (groups.map text, .empty) := by
  induction lines generalizing pending with
  | nil =>
      obtain rfl := h.pending_eq_nil
      exact ⟨[], rfl, List.forall_mem_nil _, rfl⟩
  | cons line lines ih =>
      rw [List.map_cons, chunks, feed_line]
      by_cases hopen : 0 < openAfter (pending ++ [line])
      · obtain ⟨groups, hflatten, hcomplete, hchunks⟩ := ih (h.goesOn hopen)
        refine ⟨groups, ?_, hcomplete, ?_⟩
        · rw [hflatten, List.append_assoc]
          rfl
        · rw [if_pos hopen]
          simp only [hchunks]
          rfl
      · obtain ⟨groups, hflatten, hcomplete, hchunks⟩ := ih (h.rest hopen)
        refine ⟨(pending ++ [line]) :: groups, ?_, ?_, ?_⟩
        · rw [List.flatten_cons, hflatten, List.append_assoc]
          rfl
        · exact List.forall_mem_cons.mpr ⟨h.complete hopen, hcomplete⟩
        · rw [if_neg hopen]
          have hempty : Prompt.empty = ⟨text []⟩ := rfl
          simp only [hempty, hchunks]
          rfl

/-! ### Programs without faults -/

theorem balanced_of_diagnostics {source : Bytes}
    (h : (Reading.ofSource source).diagnostics = []) : Balanced (Scan.source source).tokens := by
  have herrors : (Parsed.ofTokens (Scan.source source).tokens).errors = [] := by
    have hparsed := (List.append_eq_nil_iff.mp h).2
    exact List.map_eq_nil_iff.mp hparsed
  exact Clause.Derives.balanced (Parsed.derives_of_errors_eq_nil herrors).2

theorem lineal_of_diagnostics {source : Bytes}
    (h : (Reading.ofSource source).diagnostics = [])
    (hstrings : ∀ t ∈ (Scan.source source).tokens, ∀ text, t.literal = .str text →
      Bytes.lineFeed ∉ text) : Lineal source := by
  have herrors : (Scan.source source).errors = [] :=
    List.map_eq_nil_iff.mp (List.append_eq_nil_iff.mp h).1
  refine ⟨?_, hstrings⟩
  rw [Closed, herrors]
  exact List.forall_mem_nil _

/-- What a session shows at the prompt for sources that are complete. Blank ones do not run. -/
def answers (fuel : Nat) (level : LogLevel) (paints : Bool) (time : Bytes) :
    Session → List Bytes → Ending (Bytes × Bytes)
  | _, [] => .done ([Bytes.lineFeed], [])
  | session, source :: sources =>
      if isBlankSource source then
        answers fuel level paints time session sources
      else
        (Command.answer fuel level paints time source session).bind fun (out, err, session) =>
          (answers fuel level paints time session sources).map fun (outs, errs) =>
            (out ++ outs, err ++ errs)

theorem map_nothing_before (shown : Ending (Bytes × Bytes)) :
    (shown.map fun (outs, errs) => ([] ++ outs, [] ++ errs)) = shown := by
  cases shown <;> rfl

/-- The prompt runs its chunks, and nothing else. -/
theorem converse_eq_answers (fuel : Nat) (level : LogLevel) (paints : Bool) (time : Bytes)
    (p : Prompt) (session : Session) (inputs : List Input) :
    Command.converse fuel level paints time ⟨p, session⟩ inputs =
      answers fuel level paints time session (p.chunks inputs).1 := by
  induction inputs generalizing p session with
  | nil => rfl
  | cons input inputs ih =>
      rw [Command.converse, Command.Dialogue.step, chunks]
      obtain ⟨next, source⟩ := p.feed input
      cases source with
      | none =>
          simp only [Ending.bind, ih]
          exact map_nothing_before _
      | some source =>
          simp only [Option.toList_some, List.singleton_append, answers]
          by_cases hblank : isBlankSource source = true
          · simp only [if_pos hblank, Ending.bind, ih]
            exact map_nothing_before _
          · simp only [if_neg hblank]
            cases Command.answer fuel level paints time source session with
            | done shown => simp only [Ending.map, Ending.bind, ih]
            | broken => rfl
            | outOfFuel => rfl

/-- **The prompt never splits a block.** A program without faults whose strings do not go past the
end of a line has balanced braces. Typed line by line, it is run in chunks of whole lines: each ends
where no block is open for the first time, and nothing is left at the end. -/
theorem never_splits_block {source : Bytes} (h : (Reading.ofSource source).diagnostics = [])
    (hstrings : ∀ t ∈ (Scan.source source).tokens, ∀ text, t.literal = .str text →
      Bytes.lineFeed ∉ text) :
    Balanced (Scan.source source).listing ∧
      ∀ lines, text lines = source ∨ text lines = Bytes.line source →
        ∃ groups : List (List Bytes), groups.flatten = lines ∧
          (∀ group ∈ groups, Complete group) ∧
          Prompt.empty.chunks (lines.map .line) = (groups.map text, .empty) ∧
          (groups.map text).flatten = text lines ∧
          ∀ fuel level paints time session,
            Command.converse fuel level paints time ⟨.empty, session⟩ (lines.map .line) =
              answers fuel level paints time session (groups.map text) := by
  have hbalanced := balanced_of_diagnostics h
  have hlineal := lineal_of_diagnostics h hstrings
  have heof : Balanced [(Scan.source source).eof] := (Flat.one rfl rfl).balanced
  refine ⟨hbalanced.append heof, fun lines hlines => ?_⟩
  have htext : Lineal (text lines) ∧ Balanced (Scan.source (text lines)).tokens := by
    rcases hlines with hlines | hlines
    · rw [hlines]
      exact ⟨hlineal, hbalanced⟩
    · obtain ⟨htokens, hline⟩ := hlineal.line
      rw [hlines, htokens]
      exact ⟨hline, hbalanced⟩
  obtain ⟨groups, hflatten, hcomplete, hchunks⟩ :=
    chunks_of_gathering (.start (closed_of_lineal htext.1) htext.2)
  have hchunks : Prompt.empty.chunks (lines.map .line) = (groups.map text, .empty) := hchunks
  refine ⟨groups, hflatten, hcomplete, hchunks, ?_, fun fuel level paints time session => ?_⟩
  · rw [← List.nil_append lines, ← hflatten, text, List.flatMap_def, List.map_flatten,
      List.flatten_flatten, List.map_map]
    rfl
  · rw [converse_eq_answers, hchunks]

/-- A function, an empty line, and a block that ends with the source. -/
theorem never_splits_block_nested :
    let lines := [bytes "fun f() \x7b", bytes "  if (1 < 2) \x7b print \"\x7d\"; \x7d // \x7b",
      bytes "\x7d", [], bytes "\x7b \x7b f(); \x7d", bytes "\x7d"]
    let source := (text lines).dropLast
    (Reading.ofSource source).diagnostics = [] ∧ text lines = Bytes.line source ∧
      Balanced (Scan.source source).listing ∧
      ∃ groups : List (List Bytes), groups.flatten = lines ∧ (∀ group ∈ groups, Complete group) ∧
        groups.map text = [text (lines.take 3), text [[]], text (lines.drop 4)] := by
  intro lines source
  have h : (Reading.ofSource source).diagnostics = [] := by decide +kernel
  have hlines : text lines = Bytes.line source := by decide +kernel
  have hliterals : ∀ t ∈ (Scan.source source).tokens,
      t.literal ∈ [.nil, .num (.ofDecimal 1 0), .num (.ofDecimal 2 0), .str (bytes "\x7d")] := by
    decide +kernel
  have hstrings : ∀ t ∈ (Scan.source source).tokens, ∀ text, t.literal = .str text →
      Bytes.lineFeed ∉ text := by
    intro t ht text htext
    have hmem := hliterals t ht
    rw [htext] at hmem
    obtain rfl : text = bytes "\x7d" := by simpa using hmem
    decide +kernel
  obtain ⟨hbalanced, hgroups⟩ := never_splits_block h hstrings
  obtain ⟨groups, hflatten, hcomplete, hchunks, -, -⟩ := hgroups lines (.inr hlines)
  have hrun : (Prompt.empty.chunks (lines.map .line)).1 =
      [text (lines.take 3), text [[]], text (lines.drop 4)] := by
    decide +kernel
  rw [hchunks] at hrun
  exact ⟨h, hlines, hbalanced, groups, hflatten, hcomplete, hrun⟩

end Prompt

end Lox
