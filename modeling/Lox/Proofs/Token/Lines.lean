import Lox.Proofs.Token.LongestMatch
import Lox.Proofs.Token.Newline

/-!
# The lines of a source

A line feed ends every piece that is under way in front of it, but for a string. So a source whose
strings are closed is scanned line by line: tokens, faults and open blocks of what stands behind the
line feed are those that it has alone, on later lines.
-/

namespace Lox

/-- The diagnostic on another line. -/
def Diagnostic.renumber (g : Int → Int) (d : Diagnostic) : Diagnostic :=
  { d with line := g d.line }

namespace Scan

theorem endLine_onward (line : Int) (s : Bytes) :
    (onward line s).endLine = line + newlines s := by
  induction s using pieces.induct generalizing line with
  | case1 => simp [onward, newlines]
  | case2 c s ih =>
      rw [onward_cons, followedBy, ih, Int.add_assoc, ← newlines_append,
        first_lexeme_append_rest]

theorem listing_renumber (g : Int → Int) (scan : Scan) :
    (scan.renumber g).listing = scan.listing.map (Token.renumber g) := by
  rw [listing, listing, List.map_append]
  rfl

theorem diagnostics_renumber (g : Int → Int) (scan : Scan) :
    (scan.renumber g).diagnostics = scan.diagnostics.map (Diagnostic.renumber g) := by
  rw [diagnostics, diagnostics, Scan.renumber, List.map_map, List.map_map]
  rfl

theorem openBlocks_renumber (g : Int → Int) (scan : Scan) :
    (scan.renumber g).openBlocks = scan.openBlocks := by
  rw [openBlocks, Scan.renumber, List.countP_map, List.countP_map]
  rfl

theorem openBlocks_followedBy (scan later : Scan) :
    (scan.followedBy later).openBlocks = scan.openBlocks + later.openBlocks := by
  simp only [openBlocks, followedBy, List.countP_append]
  omega

theorem ne_unterminated_of_diagnostics {scan : Scan}
    (h : ∀ d ∈ scan.diagnostics, d.message ≠ Fault.unterminatedString.message) :
    ∀ e ∈ scan.errors, e.cause ≠ .unterminatedString := by
  intro e he hcause
  refine h e.diagnostic (List.mem_map_of_mem he) ?_
  rw [← hcause]
  rfl

theorem source_line {s : Bytes} (h : ∀ e ∈ (source s).errors, e.cause ≠ .unterminatedString)
    (q : Bytes) :
    source (Bytes.line s ++ q) =
      (source s).followedBy ((source q).renumber (· + (1 + newlines s))) := by
  rw [← endLine_onward 1 s, Bytes.line, List.append_assoc]
  exact source_newline s q h

/-- **A line feed is a boundary between tokens.** Behind a source that leaves no string open, tokens,
diagnostics and open blocks of another source are those that it has alone, on later lines. -/
theorem line_feed_bounds_tokens {s : Bytes}
    (h : ∀ d ∈ (source s).diagnostics, d.message ≠ bytes "Unterminated string.") (q : Bytes) :
    (source (Bytes.line s ++ q)).listing =
      (source s).tokens ++ (source q).listing.map (Token.renumber (· + (1 + newlines s))) ∧
    (source (Bytes.line s ++ q)).diagnostics =
      (source s).diagnostics ++
        (source q).diagnostics.map (Diagnostic.renumber (· + (1 + newlines s))) ∧
    (source (Bytes.line s ++ q)).openBlocks = (source s).openBlocks + (source q).openBlocks := by
  rw [source_line (ne_unterminated_of_diagnostics h), listing_followedBy, listing_renumber,
    diagnostics_followedBy, diagnostics_renumber, openBlocks_followedBy, openBlocks_renumber]
  exact ⟨rfl, rfl, rfl⟩

/-- The first source ends within a character and behind a point without digits, the second one starts
with a digit and opens a block that it does not close. -/
theorem line_feed_bounds_tokens_broken_off :
    let s : Bytes := bytes "\x7d\n1." ++ [0xE2, 0x82]
    let q : Bytes := 0xAC :: bytes "5\x7b\x7b//\n"
    (∀ d ∈ (source s).diagnostics, d.message ≠ bytes "Unterminated string.") ∧
      (source (Bytes.line s ++ q)).listing =
        (source s).tokens ++ (source q).listing.map (Token.renumber (· + (1 + newlines s))) ∧
      (source s).openBlocks = -1 ∧ (source q).openBlocks = 2 ∧
      (source (Bytes.line s ++ q)).openBlocks = 1 := by
  intro s q
  have h : ∀ d ∈ (source s).diagnostics, d.message ≠ bytes "Unterminated string." := by
    decide +kernel
  obtain ⟨hlisting, -, hblocks⟩ := line_feed_bounds_tokens h q
  have hs : (source s).openBlocks = -1 := by decide +kernel
  have hq : (source q).openBlocks = 2 := by decide +kernel
  refine ⟨h, hlisting, hs, hq, ?_⟩
  rw [hblocks, hs, hq]
  rfl

end Scan

end Lox
