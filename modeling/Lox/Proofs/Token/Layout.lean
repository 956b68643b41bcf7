import Lox.Proofs.Token.LongestMatch

/-!
# Layout between tokens

A lexeme that is followed by a blank or by a comment is scanned as it is scanned alone, unless it is
a slash in front of a comment, which then starts one byte earlier. So the tokens of a source can be
laid out in any other way, and nothing else is lost.
-/

namespace Lox

/-- What a token is, apart from its line. -/
def Token.content (t : Token) : Token.Kind × Bytes × Literal :=
  (t.kind, t.lexeme, t.literal)

namespace Scan

/-- Blanks, and comments with the line feeds behind them. -/
inductive Layout : Bytes → Prop where
  | nothing : Layout []
  | blank {b : UInt8} {s : Bytes}
      (hb : b ∈ [Bytes.space, Bytes.carriageReturn, Bytes.tab, Bytes.lineFeed]) (hs : Layout s) :
      Layout (b :: s)
  | comment {text s : Bytes} (htext : ∀ b ∈ text, b ≠ Bytes.lineFeed) (hs : Layout s) :
      Layout (47 :: 47 :: (text ++ Bytes.lineFeed :: s))

/-- Lexemes, each with the text behind it. -/
def laidOut (parts : List (Token × Bytes)) : Bytes :=
  parts.flatMap fun p => p.1.lexeme ++ p.2

/-- A slash that stands directly in front of a comment belongs to the comment. -/
def joinsComment (p : Token × Bytes) : Bool :=
  p.1.kind = .slash && (bytes "//").isPrefixOf p.2

theorem layout_comment (text : Bytes) (h : ∀ b ∈ text, b ≠ Bytes.lineFeed) :
    Layout (47 :: 47 :: (text ++ [Bytes.lineFeed])) :=
  .comment h .nothing

/-! ### Layout is skipped -/

/-- The scan goes on with the rest of the source, on some later line. -/
def SkipsTo (s rest : Bytes) : Prop :=
  ∀ line, ∃ later, onward line s = onward later rest

theorem SkipsTo.trans {s t u : Bytes} (h : SkipsTo s t) (h' : SkipsTo t u) : SkipsTo s u := by
  intro line
  obtain ⟨later, hlater⟩ := h line
  obtain ⟨last, hlast⟩ := h' later
  exact ⟨last, hlater.trans hlast⟩

theorem skipsTo_rest {c : UInt8} {s : Bytes} (h : (first c s).shape = .layout) :
    SkipsTo (c :: s) (first c s).rest := by
  intro line
  refine ⟨line + newlines (first c s).lexeme, ?_⟩
  rw [onward]
  simp only [h]

theorem first_of_blank {b : UInt8}
    (hb : b ∈ [Bytes.space, Bytes.carriageReturn, Bytes.tab, Bytes.lineFeed]) (s : Bytes) :
    first b s = ⟨.layout, [b], s⟩ := by
  simp only [List.mem_cons, List.not_mem_nil, or_false] at hb
  rcases hb with rfl | rfl | rfl | rfl <;> rfl

theorem first_of_comment {text : Bytes} (htext : ∀ b ∈ text, b ≠ Bytes.lineFeed) (s : Bytes) :
    first 47 (47 :: (text ++ Bytes.lineFeed :: s)) =
      ⟨.layout, 47 :: 47 :: text, Bytes.lineFeed :: s⟩ := by
  have hrun : ∀ b ∈ text, (b != Bytes.lineFeed) = true := fun b hb => bne_iff_ne.mpr (htext b hb)
  have hstops : Stops (· != Bytes.lineFeed) (Bytes.lineFeed :: s) := by
    intro b hb
    cases hb
    rfl
  change slash 47 (47 :: (text ++ Bytes.lineFeed :: s)) = _
  simp only [slash, takeWhile_run hrun hstops, dropWhile_run hrun hstops]

theorem skipsTo_blank {b : UInt8}
    (hb : b ∈ [Bytes.space, Bytes.carriageReturn, Bytes.tab, Bytes.lineFeed]) (s : Bytes) :
    SkipsTo (b :: s) s := by
  have hfirst := first_of_blank hb s
  have hskip := skipsTo_rest (c := b) (s := s) (by rw [hfirst])
  rwa [hfirst] at hskip

theorem skipsTo_comment {text : Bytes} (htext : ∀ b ∈ text, b ≠ Bytes.lineFeed) (s : Bytes) :
    SkipsTo (47 :: 47 :: (text ++ Bytes.lineFeed :: s)) (Bytes.lineFeed :: s) := by
  have hfirst := first_of_comment htext s
  have hskip := skipsTo_rest (c := 47) (s := 47 :: (text ++ Bytes.lineFeed :: s)) (by rw [hfirst])
  rwa [hfirst] at hskip

theorem Layout.skipsTo {sep : Bytes} (h : Layout sep) (rest : Bytes) :
    SkipsTo (sep ++ rest) rest := by
  induction h with
  | nothing => exact fun line => ⟨line, rfl⟩
  | blank hb _ ih => exact (skipsTo_blank hb _).trans ih
  | @comment text s htext _ ih =>
      have hcomment := skipsTo_comment htext (s ++ rest)
      simp only [List.cons_append, List.append_assoc]
      exact hcomment.trans ((skipsTo_blank (by decide) _).trans ih)

/-! ### Lexemes in front of layout -/

/-- Bytes with which layout begins. -/
def opensLayout (b : UInt8) : Bool :=
  [Bytes.space, Bytes.carriageReturn, Bytes.tab, Bytes.lineFeed, 47].contains b

/-- No token goes on at the beginning of the source. -/
def Ends (s : Bytes) : Prop :=
  ∀ b ∈ s.head?, opensLayout b = true

theorem Ends.stops {s : Bytes} (h : Ends s) {p : UInt8 → Bool}
    (hp : ∀ b, opensLayout b = true → p b = false) : Stops p s :=
  fun b hb => hp b (h b hb)

theorem Ends.head_ne {s : Bytes} (h : Ends s) {b : UInt8} (hb : opensLayout b = false) :
    s.head? ≠ some b := by
  intro hhead
  have hopens := h b hhead
  rw [hb] at hopens
  cases hopens

theorem isDigit_of_opensLayout (b : UInt8) (h : opensLayout b = true) :
    Bytes.isDigit b = false := by
  simp only [opensLayout, List.contains_eq_mem, List.mem_cons, List.not_mem_nil, or_false,
    decide_eq_true_eq] at h
  rcases h with rfl | rfl | rfl | rfl | rfl <;> rfl

theorem isWordByte_of_opensLayout (b : UInt8) (h : opensLayout b = true) :
    Bytes.isWordByte b = false := by
  simp only [opensLayout, List.contains_eq_mem, List.mem_cons, List.not_mem_nil, or_false,
    decide_eq_true_eq] at h
  rcases h with rfl | rfl | rfl | rfl | rfl <;> rfl

theorem Layout.ends {sep : Bytes} (h : Layout sep) (hne : sep ≠ []) (rest : Bytes) :
    Ends (sep ++ rest) := by
  intro b hb
  cases h with
  | nothing => exact absurd rfl hne
  | blank hmem _ =>
      cases hb
      simp only [List.mem_cons, List.not_mem_nil, or_false] at hmem
      rcases hmem with rfl | rfl | rfl | rfl <;> rfl
  | comment _ _ =>
      cases hb
      rfl

/-- The lexeme is cut off whole in front of the rest. -/
def CutOff (lexeme rest : Bytes) (shape : Shape) : Prop :=
  ∃ c run, lexeme = c :: run ∧ first c (run ++ rest) = ⟨shape, lexeme, rest⟩

section CutOff

variable {rest : Bytes}

theorem cutOff_symbol (hrest : Ends rest) {lexeme : Bytes} {kind : Token.Kind}
    (h : (lexeme, kind) ∈ symbols) (hslash : kind = .slash → rest.head? ≠ some 47) :
    CutOff lexeme rest (.token kind .nil) := by
  have hequal : rest.head? ≠ some 61 := hrest.head_ne rfl
  have single {c : UInt8} {kind : Token.Kind} (h : first c rest = single kind c rest) :
      CutOff [c] rest (.token kind .nil) := ⟨c, [], rfl, h⟩
  have short {c : UInt8} {long short : Token.Kind}
      (h : first c rest = operator long short c rest) : CutOff [c] rest (.token short .nil) :=
    ⟨c, [], rfl, h.trans (operator_of_head_ne long short hequal)⟩
  have long {c : UInt8} {kind : Token.Kind}
      (h : first c (61 :: rest) = ⟨.token kind .nil, [c, 61], rest⟩) :
      CutOff [c, 61] rest (.token kind .nil) := ⟨c, [61], rfl, h⟩
  have hall : ∀ p ∈ symbols, (p.2 = .slash → rest.head? ≠ some 47) →
      CutOff p.1 rest (.token p.2 .nil) := by
    simp only [symbols, List.forall_mem_cons]
    exact ⟨fun _ => single rfl, fun _ => single rfl, fun _ => single rfl, fun _ => single rfl,
      fun _ => single rfl, fun _ => single rfl, fun _ => single rfl, fun _ => single rfl,
      fun _ => single rfl, fun h => ⟨47, [], rfl, slash_of_head_ne (h trivial)⟩, fun _ => single rfl,
      fun _ => short rfl, fun _ => long rfl, fun _ => short rfl, fun _ => long rfl,
      fun _ => short rfl, fun _ => long rfl, fun _ => short rfl, fun _ => long rfl, by simp⟩
  exact hall _ h hslash

theorem cutOff_word (hrest : Ends rest) {c : UInt8} {run : Bytes} (hc : Bytes.isLetter c = true)
    (hrun : ∀ b ∈ run, Bytes.isWordByte b = true) :
    CutOff (c :: run) rest (.token (.ofWord (c :: run)) .nil) := by
  refine ⟨c, run, rfl, ?_⟩
  rw [first_of_isLetter hc]
  exact word_append hrun (hrest.stops isWordByte_of_opensLayout)

/-- A lexeme is cut off in front of layout, but for a slash in front of another one. -/
theorem Matches.cutOff {lexeme : Bytes} {kind : Token.Kind} {literal : Literal}
    (h : Matches lexeme (.token kind literal)) (hrest : Ends rest)
    (hslash : kind = .slash → rest.head? ≠ some 47) :
    CutOff lexeme rest (.token kind literal) := by
  have hdigits : Stops Bytes.isDigit rest := hrest.stops isDigit_of_opensLayout
  cases h with
  | @string body hbody =>
      refine ⟨34, body ++ [34], rfl, ?_⟩
      rw [List.append_assoc]
      exact string_closed hbody rest
  | integer hsome hall =>
      obtain ⟨c, run, rfl⟩ := List.exists_cons_of_ne_nil hsome
      rw [List.forall_mem_cons] at hall
      refine ⟨c, run, rfl, ?_⟩
      rw [first_of_isDigit hall.1]
      refine number_whole hall.2 hdigits fun t ht => ?_
      exact absurd (ht ▸ rfl) (hrest.head_ne (b := 46) rfl)
  | decimal hwhole hfraction hall =>
      obtain ⟨c, run, rfl⟩ := List.exists_cons_of_ne_nil hwhole
      obtain ⟨d, more, rfl⟩ := List.exists_cons_of_ne_nil hfraction
      simp only [List.cons_append, List.forall_mem_cons, List.forall_mem_append] at hall
      obtain ⟨hc, hrun, hd, hmore⟩ := hall
      refine ⟨c, run ++ 46 :: d :: more, rfl, ?_⟩
      have hnumber := number_fraction (c := c) hrun hd hmore hdigits
      rw [first_of_isDigit hc, List.append_assoc]
      exact hnumber
  | keyword hc hs hword => exact ofWord_of_mem hword ▸ cutOff_word hrest hc hs
  | identifier hc hs hword => exact ofWord_eq_identifier hword ▸ cutOff_word hrest hc hs
  | symbol hsymbol => exact cutOff_symbol hrest hsymbol hslash

end CutOff

theorem CutOff.onward_eq {lexeme rest : Bytes} {kind : Token.Kind} {literal : Literal}
    (h : CutOff lexeme rest (.token kind literal)) (line : Int) :
    onward line (lexeme ++ rest) =
      Scan.followedBy ⟨[⟨kind, lexeme, literal, line + newlines lexeme⟩], [], line + newlines lexeme⟩
        (onward (line + newlines lexeme) rest) := by
  obtain ⟨c, run, hlexeme, hfirst⟩ := h
  have hstart : lexeme ++ rest = c :: (run ++ rest) := by rw [hlexeme, List.cons_append]
  rw [hstart, onward_cons, hfirst]
  rfl

/-! ### All tokens -/

/-- Every lexeme has layout behind it, of which only the last one may be empty. -/
structure WellSpaced (parts : List (Token × Bytes)) : Prop where
  layout : ∀ p ∈ parts, Layout p.2
  gaps : ∀ p ∈ parts.dropLast, p.2 ≠ []

section WellSpaced

variable {p : Token × Bytes} {parts : List (Token × Bytes)}

theorem WellSpaced.tail (h : WellSpaced (p :: parts)) : WellSpaced parts := by
  refine ⟨fun q hq => h.layout q (List.mem_cons_of_mem p hq), fun q hq => ?_⟩
  cases parts with
  | nil => cases hq
  | cons r parts => exact h.gaps q (List.mem_cons_of_mem p hq)

theorem WellSpaced.ends (h : WellSpaced (p :: parts)) : Ends (p.2 ++ laidOut parts) := by
  by_cases hsep : p.2 = []
  · cases parts with
    | nil => simp [hsep, laidOut, Ends]
    | cons q parts => exact absurd hsep (h.gaps p List.mem_cons_self)
  · exact (h.layout p List.mem_cons_self).ends hsep _

theorem Layout.head?_eq_slash {sep : Bytes} (h : Layout sep) (hhead : sep.head? = some 47) :
    (bytes "//").isPrefixOf sep = true ∧ Layout (47 :: sep) := by
  cases h with
  | nothing => cases hhead
  | blank hb _ =>
      cases hhead
      exact absurd hb (by decide)
  | @comment text s htext hs =>
      have hlonger : ∀ b ∈ 47 :: text, b ≠ Bytes.lineFeed :=
        List.forall_mem_cons.mpr ⟨by decide, htext⟩
      exact ⟨rfl, .comment hlonger hs⟩

theorem WellSpaced.head?_ne_slash (h : WellSpaced (p :: parts)) (hjoins : joinsComment p = false)
    (hkind : p.1.kind = .slash) : (p.2 ++ laidOut parts).head? ≠ some 47 := by
  intro hhead
  have hlayout := h.layout p List.mem_cons_self
  cases hsep : p.2 with
  | nil =>
      cases parts with
      | nil =>
          rw [hsep] at hhead
          cases hhead
      | cons q parts => exact h.gaps p List.mem_cons_self hsep
  | cons b sep =>
      rw [hsep] at hhead hlayout
      have hprefix := (hlayout.head?_eq_slash hhead).1
      simp [joinsComment, hkind, hsep, hprefix] at hjoins

theorem Matches.eq_slash {lexeme : Bytes} {literal : Literal}
    (h : Matches lexeme (.token .slash literal)) : lexeme = [47] := by
  have hwords : ∀ p ∈ Token.Kind.reservedWords, p.2 ≠ .slash := by decide
  have hsymbols : ∀ p ∈ symbols, p.2 = .slash → p.1 = [47] := by decide
  cases h with
  | keyword _ _ hword => exact absurd rfl (hwords _ hword)
  | symbol hsymbol => exact hsymbols _ hsymbol rfl

/-- A slash and the comment behind it are skipped together. -/
theorem skipsTo_of_joinsComment (hlayout : Layout p.2)
    (hmatch : Matches p.1.lexeme (.token p.1.kind p.1.literal)) (h : joinsComment p = true)
    (rest : Bytes) : SkipsTo (p.1.lexeme ++ (p.2 ++ rest)) rest := by
  simp only [joinsComment, Bool.and_eq_true, decide_eq_true_eq] at h
  obtain ⟨later, hlater⟩ := List.isPrefixOf_iff_prefix.mp h.2
  have hhead : p.2.head? = some 47 := by
    rw [← hlater]
    rfl
  rw [h.1] at hmatch
  rw [hmatch.eq_slash]
  exact (hlayout.head?_eq_slash hhead).2.skipsTo rest

/-- What is scanned of lexemes that are laid out: all of them, but for slashes that join a comment. -/
theorem onward_laidOut (hspaced : WellSpaced parts)
    (hmatch : ∀ p ∈ parts, Matches p.1.lexeme (.token p.1.kind p.1.literal)) (line : Int) :
    (onward line (laidOut parts)).errors = [] ∧
      (onward line (laidOut parts)).tokens.map Token.content =
        (parts.filter (!joinsComment ·)).map (·.1.content) := by
  induction parts generalizing line with
  | nil => simp [laidOut, onward]
  | cons p parts ih =>
      have hlayout := hspaced.layout p List.mem_cons_self
      rw [List.forall_mem_cons] at hmatch
      have htext : laidOut (p :: parts) = p.1.lexeme ++ (p.2 ++ laidOut parts) := by
        simp [laidOut]
      rw [htext]
      cases hjoins : joinsComment p with
      | true =>
          obtain ⟨later, hlater⟩ := skipsTo_of_joinsComment hlayout hmatch.1 hjoins (laidOut parts) line
          rw [hlater, List.filter_cons_of_neg (by simp [hjoins])]
          exact ih hspaced.tail hmatch.2 later
      | false =>
          have hcut := hmatch.1.cutOff hspaced.ends (hspaced.head?_ne_slash hjoins)
          obtain ⟨later, hlater⟩ :=
            hlayout.skipsTo (laidOut parts) (line + newlines p.1.lexeme)
          obtain ⟨herrors, htokens⟩ := ih hspaced.tail hmatch.2 later
          rw [hcut.onward_eq, hlater, followedBy, herrors, List.map_append, htokens,
            List.filter_cons_of_pos (by simp [hjoins])]
          exact ⟨rfl, rfl⟩

end WellSpaced

/-- Every token of a source is spelled by a pattern of its kind. -/
theorem matches_of_mem_tokens (line : Int) (s : Bytes) :
    ∀ t ∈ (onward line s).tokens, Matches t.lexeme (.token t.kind t.literal) := by
  refine forall_mem_tokens (fun c s endLine t ht => ?_) line s
  have hmatch := matches_first (c := c) (s := s)
  unfold Piece.token? at ht
  split at ht
  case h_1 kind literal hshape =>
    cases ht
    rw [hshape] at hmatch
    exact hmatch fun _ => Shape.noConfusion
  case h_2 => cases ht

/-- **Layout between tokens does not matter.** The tokens of a source, faults or not, can be laid out
with any blanks and comments between them. They are scanned again without a fault, and all of them
are there exactly if no slash stands directly in front of a comment. -/
theorem layout_keeps_tokens (s : Bytes) {opening : Bytes} {parts : List (Token × Bytes)}
    (hopening : Layout opening) (htokens : parts.map Prod.fst = (source s).tokens)
    (hspaced : WellSpaced parts) :
    (source (opening ++ laidOut parts)).diagnostics = [] ∧
      ((source (opening ++ laidOut parts)).tokens.map Token.content =
          (source s).tokens.map Token.content ↔
        ∀ p ∈ parts, joinsComment p = false) := by
  have hmatch : ∀ p ∈ parts, Matches p.1.lexeme (.token p.1.kind p.1.literal) := by
    intro p hp
    refine matches_of_mem_tokens 1 s p.1 ?_
    have hmem := List.mem_map_of_mem (f := Prod.fst) hp
    rwa [htokens] at hmem
  obtain ⟨line, hline⟩ := hopening.skipsTo (laidOut parts) 1
  obtain ⟨herrors, hcontents⟩ := onward_laidOut hspaced hmatch line
  have hsource : source (opening ++ laidOut parts) = onward line (laidOut parts) := hline
  rw [hsource, diagnostics, herrors, hcontents, ← htokens, List.map_map]
  refine ⟨rfl, fun hsame => ?_, fun hnone => ?_⟩
  · have hlength := congrArg List.length hsame
    rw [List.length_map, List.length_map, List.length_filter_eq_length_iff] at hlength
    exact fun p hp => by simpa using hlength p hp
  · rw [List.filter_eq_self.mpr fun p hp => by simp [hnone p hp]]
    rfl

/-- A source with a fault, and a slash with a comment in sight of it. -/
theorem layout_keeps_tokens_faulty :
    let s := bytes "x/1.!=@"
    let opening : Bytes := [47, 47, 34, 10]
    let parts := (source s).tokens.zip [[9], [10, 47, 47, 33, 10], [47, 47, 10], [32], []]
    (source s).diagnostics ≠ [] ∧ Layout opening ∧ parts.map Prod.fst = (source s).tokens ∧
      WellSpaced parts ∧ (source (opening ++ laidOut parts)).diagnostics = [] ∧
      (source (opening ++ laidOut parts)).tokens.map Token.content =
        (source s).tokens.map Token.content := by
  intro s opening parts
  have hfault : (source s).diagnostics ≠ [] := by decide +kernel
  have htokens : parts.map Prod.fst = (source s).tokens := by decide +kernel
  have hgaps : parts.map Prod.snd = [[9], [10, 47, 47, 33, 10], [47, 47, 10], [32], []] := by
    decide +kernel
  have hcomment : Layout [47, 47, 33, 10] := layout_comment [33] (List.forall_mem_singleton.mpr (by decide))
  have hlayouts : ∀ sep ∈ parts.map Prod.snd, Layout sep := by
    rw [hgaps]
    simp only [List.forall_mem_cons]
    exact ⟨.blank (by decide) .nothing, .blank (by decide) hcomment,
      layout_comment [] (List.forall_mem_nil _), .blank (by decide) .nothing, .nothing, by simp⟩
  have hspaced : WellSpaced parts :=
    ⟨fun p hp => hlayouts p.2 (List.mem_map_of_mem hp), by decide +kernel⟩
  have hopening : Layout opening := layout_comment [34] (List.forall_mem_singleton.mpr (by decide))
  obtain ⟨hnone, hsame⟩ := layout_keeps_tokens s hopening htokens hspaced
  exact ⟨hfault, hopening, htokens, hspaced, hnone, hsame.mpr (by decide +kernel)⟩

/-- A slash with nothing but a comment behind it is lost. -/
theorem slash_joins_comment :
    let s := bytes "/"
    let parts := (source s).tokens.zip [bytes "//\n"]
    parts.map Prod.fst = (source s).tokens ∧ WellSpaced parts ∧
      (source (laidOut parts)).tokens.map Token.content ≠
        (source s).tokens.map Token.content := by
  intro s parts
  have hgaps : parts.map Prod.snd = [[47, 47, 10]] := by decide +kernel
  have hcomment : Layout [47, 47, 10] := layout_comment [] (List.forall_mem_nil _)
  have hlayouts : ∀ sep ∈ parts.map Prod.snd, Layout sep := by
    rw [hgaps]
    simpa using hcomment
  refine ⟨by decide +kernel, ⟨fun p hp => ?_, by decide +kernel⟩, by decide +kernel⟩
  exact hlayouts p.2 (List.mem_map_of_mem hp)

end Scan

end Lox
