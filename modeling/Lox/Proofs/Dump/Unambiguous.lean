import Lox.Proofs.Dump.Statement
import Lox.Proofs.Parser.Accepts
import Lox.Session

/-!
# A dump tells the program

Every statement of a dumped program stands on a line of its own and is read back from it. So two
programs with the same dump are the same trees, all but the lines of their tokens.
-/

namespace Lox

/-! ### Lines of forms -/

namespace Form

theorem stops_lineFeed (r : Bytes) : Scan.Stops isPlain (Bytes.lineFeed :: r) := by
  rintro b ⟨⟩
  rfl

theorem lines_unambiguous {xs ys : List Form} (hxs : LegibleAll xs) (hys : LegibleAll ys)
    (h : (xs.map render).flatMap Bytes.line = (ys.map render).flatMap Bytes.line) : xs = ys := by
  induction xs generalizing ys with
  | nil =>
      cases ys with
      | nil => rfl
      | cons y ys => simp [Bytes.line] at h
  | cons x xs ih =>
      cases ys with
      | nil => simp [Bytes.line] at h
      | cons y ys =>
          simp only [List.map_cons, List.flatMap_cons, Bytes.line, List.append_assoc,
            List.cons_append, List.nil_append] at h
          obtain ⟨rfl, hrest⟩ := render_unambiguous x y hxs.1 hys.1 (stops_lineFeed _)
            (stops_lineFeed _) h
          rw [ih hxs.2 hys.2 (List.cons.inj hrest).2]

end Form

/-! ### Programs -/

/-- The statements of a program without faults are read back from their forms. -/
theorem Reading.readsBack {source : Bytes} (h : (Reading.ofSource source).diagnostics = []) :
    ∀ s ∈ (Reading.ofSource source).program, s.ReadsBack := by
  have herrors : (Parsed.ofTokens (Scan.source source).tokens).errors = [] :=
    List.map_eq_nil_iff.mp (List.append_eq_nil_iff.mp h).2
  have hderived := (Parsed.derives_of_errors_eq_nil herrors).2
  have hgenuine : ∀ t ∈ (Scan.source source).tokens, t.Genuine :=
    Scan.matches_of_mem_tokens 1 source
  exact Grammar.Clause.Derives.readsBack hderived hgenuine

theorem renumberAll_eq_of_dump_eq {p q : List (Stmt Unit)} (hp : ∀ s ∈ p, s.ReadsBack)
    (hq : ∀ s ∈ q, s.ReadsBack) (h : dump p = dump q) :
    Stmt.renumberAll (fun _ => 0) p = Stmt.renumberAll (fun _ => 0) q := by
  rw [dump, dump, Stmt.dumps_eq_render, Stmt.dumps_eq_render] at h
  have hforms := Form.lines_unambiguous (legible_stmts hp) (legible_stmts hq) h
  rw [← stmts_forms hp, ← stmts_forms hq, hforms]

theorem dumps_eq_map {ρ : Type} (ss : List (Stmt ρ)) : Stmt.dumps ss = ss.map Stmt.dump := by
  induction ss with
  | nil => rfl
  | cons s ss ih => rw [Stmt.dumps, ih, List.map_cons]

theorem Stmt.ReadsBack.lineFeed_notMem {s : Stmt Unit} (h : s.ReadsBack) :
    Bytes.lineFeed ∉ s.dump := by
  rw [s.dump_eq_render]
  exact fun hmem => Form.ne_lineFeed_of_mem_render s.form h.legible _ hmem rfl

/-- Programs without faults that are dumped alike are the same trees, but for the lines of their
tokens, and every statement of a dump is one line. -/
theorem Reading.determined_by_dump {source other : Bytes}
    (h : (Reading.ofSource source).diagnostics = [])
    (hother : (Reading.ofSource other).diagnostics = []) :
    let program := (Reading.ofSource source).program
    let otherProgram := (Reading.ofSource other).program
    (dump program = dump otherProgram →
      Stmt.renumberAll (fun _ => 0) program = Stmt.renumberAll (fun _ => 0) otherProgram) ∧
    dump program = program.flatMap (fun s => Bytes.line s.dump) ∧
    ∀ s ∈ program, Bytes.lineFeed ∉ s.dump := by
  have hreads := Reading.readsBack h
  refine ⟨renumberAll_eq_of_dump_eq hreads (Reading.readsBack hother), ?_, fun s hs => ?_⟩
  · rw [dump, dumps_eq_map, List.flatMap_map]
  · exact (hreads s hs).lineFeed_notMem

/-- A class with a base, a negation beside a subtraction, and a string with a line feed. The second
source is spaced differently and has a comment. -/
theorem Reading.determined_by_dump_respaced :
    let source := bytes "class A < B \x7b init(x) \x7b this.x = -x - 1.5; \x7d \x7d\n" ++
      bytes "for (var i = 0; i < 2;) print A(i).x == \"a\nb\" or (i);"
    let other := bytes "class A<B\x7binit(x)\x7bthis.x=-\nx-1.50;\x7d\x7d// \x7b\n" ++
      bytes "for(var i=0;i<2;)print A(i).x==\"a\nb\"or(i);"
    (Reading.ofSource source).diagnostics = [] ∧ (Reading.ofSource other).diagnostics = [] ∧
    dump (Reading.ofSource source).program = dump (Reading.ofSource other).program ∧
    Stmt.renumberAll (fun _ => 0) (Reading.ofSource source).program =
      Stmt.renumberAll (fun _ => 0) (Reading.ofSource other).program := by
  intro source other
  have h : (Reading.ofSource source).diagnostics = [] := by decide +kernel
  have hother : (Reading.ofSource other).diagnostics = [] := by decide +kernel
  have hdump : dump (Reading.ofSource source).program = dump (Reading.ofSource other).program := by
    decide +kernel
  exact ⟨h, hother, hdump, (Reading.determined_by_dump h hother).1 hdump⟩

end Lox
