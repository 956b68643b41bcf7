import Mathlib.Data.List.Forall2
import Lox.Proofs.Renaming.Respelled
import Lox.Proofs.Token.Runs

/-!
# Sources with names respelled

Where a piece ends depends on the bytes behind it: on whether the next one is a letter, and behind a
number on the two that may open a fraction. A name that takes the place of another one is as good as
that one to end the piece in front of it. So a source is cut in the same places after some of its
names have been respelled.
-/

namespace Lox.Scan

/-! ### Where pieces end -/

/-- The sources open alike, as far as the end of a piece in front of them depends on it. -/
inductive OpenAlike : Bytes → Bytes → Prop where
  | nil : OpenAlike [] []
  | letters {c c' : UInt8} {s s' : Bytes} (h : Bytes.isLetter c = true)
      (h' : Bytes.isLetter c' = true) : OpenAlike (c :: s) (c' :: s')
  | point {s s' : Bytes} (h : OpenAlike s s') : OpenAlike (46 :: s) (46 :: s')
  | byte {c : UInt8} {s s' : Bytes} (h : c ≠ 46) : OpenAlike (c :: s) (c :: s')

/-- No run of bytes tells letters apart. -/
theorem OpenAlike.stops {s s' : Bytes} (h : OpenAlike s s') {p : UInt8 → Bool}
    (hletters : ∀ b b', Bytes.isLetter b = true → Bytes.isLetter b' = true → p b = p b')
    (hs : Stops p s) : Stops p s' := by
  cases h with
  | nil => exact hs
  | @letters c c' _ _ hc hc' =>
      intro b hb
      cases hb
      rw [← hletters c _ hc hc']
      exact hs c rfl
  | point _ => exact hs
  | byte _ => exact hs

theorem ne_of_isLetter {b d : UInt8} (h : Bytes.isLetter b = true) (hd : Bytes.isLetter d = false) :
    b ≠ d := by
  rintro rfl
  rw [h] at hd
  cases hd

theorem OpenAlike.stops_digits {s s' : Bytes} (h : OpenAlike s s') (hs : Stops Bytes.isDigit s) :
    Stops Bytes.isDigit s' :=
  h.stops (fun _ _ hb hb' => by rw [isDigit_of_isLetter hb, isDigit_of_isLetter hb']) hs

theorem OpenAlike.stops_word {s s' : Bytes} (h : OpenAlike s s') (hs : Stops Bytes.isWordByte s) :
    Stops Bytes.isWordByte s' :=
  h.stops (fun _ _ hb hb' => by simp only [Bytes.isWordByte, hb, hb', Bool.true_or]) hs

theorem OpenAlike.head_ne {s s' : Bytes} (h : OpenAlike s s') {d : UInt8}
    (hd : Bytes.isLetter d = false) (hs : s.head? ≠ some d) : s'.head? ≠ some d := by
  cases h with
  | nil => exact hs
  | letters _ hc' =>
      intro heq
      exact ne_of_isLetter hc' hd (Option.some.inj heq)
  | point _ => exact hs
  | byte _ => exact hs

/-! ### Pieces in front of another source -/

/-- The piece in front of another source. -/
def Piece.inFrontOf (p : Piece) (q : Bytes) : Piece :=
  { p with rest := q }

section

variable {c : UInt8} {s q : Bytes}

theorem operator_inFrontOf (long short : Token.Kind)
    (h : OpenAlike (operator long short c s).rest q) :
    operator long short c ((operator long short c s).lexeme.tail ++ q) =
      (operator long short c s).inFrontOf q := by
  by_cases hs : s.head? = some 61
  · obtain ⟨s, rfl⟩ := List.head?_eq_some_iff.mp hs
    rfl
  · rw [operator_of_head_ne long short hs] at h ⊢
    exact operator_of_head_ne long short (h.head_ne rfl hs)

theorem slash_inFrontOf (h : OpenAlike (slash c s).rest q) :
    slash c ((slash c s).lexeme.tail ++ q) = (slash c s).inFrontOf q := by
  by_cases hs : s.head? = some 47
  · obtain ⟨s, rfl⟩ := List.head?_eq_some_iff.mp hs
    have hstops : Stops (· != Bytes.lineFeed) q := by
      refine h.stops (fun b b' hb hb' => ?_) (stops_dropWhile _ s)
      have hne : b ≠ Bytes.lineFeed := ne_of_isLetter hb rfl
      have hne' : b' ≠ Bytes.lineFeed := ne_of_isLetter hb' rfl
      simp only [bne_iff_ne.mpr hne, bne_iff_ne.mpr hne']
    have hrun : ∀ b ∈ s.takeWhile (· != Bytes.lineFeed), (b != Bytes.lineFeed) = true :=
      fun _ => List.mem_takeWhile_imp
    have htake := takeWhile_run hrun hstops
    have hdrop := dropWhile_run hrun hstops
    simp only [slash, List.tail_cons, List.cons_append, htake, hdrop, Piece.inFrontOf]
  · rw [slash_of_head_ne hs] at h ⊢
    exact slash_of_head_ne (h.head_ne rfl hs)

theorem string_inFrontOf (h : (string c s).shape ≠ .fault .unterminatedString) :
    string c ((string c s).lexeme.tail ++ q) = (string c s).inFrontOf q := by
  unfold string at h ⊢
  dsimp only at h ⊢
  cases hquote : s.dropWhile (· != 34) with
  | nil =>
      rw [hquote] at h
      exact absurd rfl h
  | cons quote rest =>
      have hstops : Stops (· != 34) (quote :: q) := by
        have hquoted := stops_dropWhile (· != 34) s
        rw [hquote] at hquoted
        exact hquoted
      have hrun : ∀ b ∈ s.takeWhile (· != 34), (b != 34) = true :=
        fun _ => List.mem_takeWhile_imp
      have htake := takeWhile_run hrun hstops
      have hdrop := dropWhile_run hrun hstops
      simp only [List.cons_append, List.tail_cons, List.append_assoc, List.nil_append, htake, hdrop,
        Piece.inFrontOf]

theorem number_inFrontOf (h : OpenAlike (number c s).rest q) :
    number c ((number c s).lexeme.tail ++ q) = (number c s).inFrontOf q := by
  rcases number_cases s with ⟨run, t, rfl, hrun, ht, hpoint⟩ |
    ⟨run, d, more, t, rfl, hrun, hd, hmore, ht⟩
  · rw [number_whole hrun ht hpoint] at h ⊢
    refine number_whole hrun (h.stops_digits ht) fun u hu => ?_
    subst hu
    cases h with
    | letters _ hc => cases hc
    | point h => exact h.stops_digits (hpoint _ rfl)
    | byte hne => exact absurd rfl hne
  · rw [number_fraction hrun hd hmore ht] at h ⊢
    have hq := number_fraction (c := c) hrun hd hmore (h.stops_digits ht)
    simpa [Piece.inFrontOf] using hq

theorem word_inFrontOf (h : OpenAlike (word c s).rest q) :
    word c ((word c s).lexeme.tail ++ q) = (word c s).inFrontOf q := by
  have hrun : ∀ b ∈ s.takeWhile Bytes.isWordByte, Bytes.isWordByte b = true :=
    fun _ => List.mem_takeWhile_imp
  exact word_append hrun (h.stops_word (stops_dropWhile _ s))

/-- A piece is the same in front of a source that opens like the one behind it. -/
theorem first_inFrontOf (hshape : ∀ cause, (first c s).shape ≠ .fault cause)
    (h : OpenAlike (first c s).rest q) :
    first c ((first c s).lexeme.tail ++ q) = (first c s).inFrontOf q := by
  -- In both calls the same first byte decides; the run between them must not be split as well.
  generalize hrun : (first c s).lexeme.tail = run
  revert hshape h hrun
  unfold first
  split
  case h_11 => exact fun _ h hrun => hrun ▸ slash_inFrontOf h
  case h_12 | h_13 | h_14 | h_15 => exact fun _ h hrun => hrun ▸ operator_inFrontOf _ _ h
  case h_20 => exact fun hshape _ hrun => hrun ▸ string_inFrontOf (hshape _)
  case h_21 =>
    split
    · exact fun _ h hrun => hrun ▸ number_inFrontOf h
    · split
      · exact fun _ h hrun => hrun ▸ word_inFrontOf h
      · exact fun hshape _ _ => absurd rfl (hshape .unexpectedCharacter)
  all_goals exact fun _ _ hrun => hrun ▸ rfl

end

/-! ### Names -/

theorem exists_letter_of_isName {w : Bytes} (h : isName w = true) :
    ∃ c run, w = c :: run ∧ Bytes.isLetter c = true ∧ ∀ b ∈ run, Bytes.isWordByte b = true := by
  cases w with
  | nil => cases h
  | cons c run =>
      simp only [isName, Bool.and_eq_true, List.all_eq_true] at h
      exact ⟨c, run, rfl, h.1.1, h.1.2⟩

theorem newlines_of_isName {w : Bytes} (h : isName w = true) : newlines w = 0 := by
  obtain ⟨c, run, rfl, hc, hrun⟩ := exists_letter_of_isName h
  have hnone : Bytes.lineFeed ∉ c :: run := by
    intro hmem
    rcases List.mem_cons.mp hmem with rfl | hmem
    · cases hc
    · cases hrun _ hmem
  simp [newlines, List.count_eq_zero.mpr hnone]

/-- A name is one piece, if no byte behind it can be part of it. -/
theorem first_of_isName {w q : Bytes} (hw : isName w = true) (hq : Stops Bytes.isWordByte q) :
    ∃ c s, c :: s = w ++ q ∧ Bytes.isLetter c = true ∧
      first c s = ⟨.token .identifier .nil, w, q⟩ := by
  obtain ⟨c, run, rfl, hc, hrun⟩ := exists_letter_of_isName hw
  refine ⟨c, run ++ q, rfl, hc, ?_⟩
  rw [first_of_isLetter hc, word_append hrun hq, ofWord_of_isName hw]

/-! ### Sources -/

/-- The piece stays as it is, or it is the old name and becomes the new one. -/
structure Piece.Respelled (r : Renaming) (p p' : Piece) : Prop where
  shape : p'.shape = p.shape
  lexeme : p'.lexeme = p.lexeme ∨ p.lexeme = r.old ∧ p'.lexeme = r.new

variable {r : Renaming} {c : UInt8} {s q : Bytes}

theorem openAlike_first (h : OpenAlike (first c s).rest q) :
    OpenAlike (c :: s) (c :: ((first c s).lexeme.tail ++ q)) := by
  by_cases hc : c = 46
  · subst hc
    exact .point h
  · exact .byte hc

theorem first_of_lexeme_eq_old (h : (first c s).lexeme = r.old) :
    Bytes.isLetter c = true ∧ (first c s).shape = .token .identifier .nil ∧
      Stops Bytes.isWordByte (first c s).rest := by
  have happend := first_lexeme_append_rest c s
  obtain ⟨d, run, hold, hd, -⟩ := exists_letter_of_isName r.isName_old
  rw [h, hold] at happend
  obtain rfl : d = c := (List.cons.inj happend).1
  rw [first_of_isLetter hd] at h ⊢
  refine ⟨hd, ?_, stops_dropWhile _ s⟩
  have hkind : Token.Kind.ofWord (word d s).lexeme = .identifier := by
    rw [h]
    exact ofWord_of_isName r.isName_old
  exact congrArg (Shape.token · .nil) hkind

theorem scan_of_not_fault {p : Piece} (h : ∀ cause, p.shape ≠ .fault cause) (line : Int) :
    (p.scan line).errors = [] := by
  unfold Piece.scan Piece.error?
  cases hshape : p.shape with
  | layout => rfl
  | token _ _ => rfl
  | fault cause => exact absurd hshape (h cause)

/-- The token of a piece is respelled only if the piece is the old name. -/
theorem Piece.respelled_tokens {p : Piece} {endLine : Int} {us : List Token}
    (h : List.Forall₂ r.Respells (p.token? endLine).toList us) :
    us = (p.token? endLine).toList ∨
      p.lexeme = r.old ∧ us = (Piece.token? { p with lexeme := r.new } endLine).toList := by
  unfold Piece.token? at h ⊢
  cases hshape : p.shape with
  | token kind literal =>
      rw [hshape] at h
      cases h with
      | cons ht hnone =>
          cases hnone
          rcases ht with rfl | ⟨hold, rfl⟩
          · exact .inl rfl
          · exact .inr ⟨hold, rfl⟩
  | layout | fault _ =>
      rw [hshape] at h
      cases h
      exact .inl rfl

/-- The first piece can be respelled in front of what the pieces behind it become. -/
theorem first_respelled {line : Int} {us : List Token}
    (hshape : ∀ cause, (first c s).shape ≠ .fault cause) (hrest : OpenAlike (first c s).rest q)
    (hus : List.Forall₂ r.Respells ((first c s).scan line).tokens us) :
    ∃ c' s', (first c' s').rest = q ∧ (first c s).Respelled r (first c' s') ∧
      newlines (first c' s').lexeme = newlines (first c s).lexeme ∧
      ((first c' s').scan line).tokens = us ∧ OpenAlike (c :: s) (c' :: s') := by
  rcases Piece.respelled_tokens hus with rfl | ⟨hold, rfl⟩
  · have hfirst := first_inFrontOf hshape hrest
    refine ⟨c, (first c s).lexeme.tail ++ q, ?_⟩
    rw [hfirst]
    exact ⟨rfl, ⟨rfl, .inl rfl⟩, rfl, rfl, openAlike_first hrest⟩
  · obtain ⟨hc, hidentifier, hstops⟩ := first_of_lexeme_eq_old hold
    obtain ⟨c', s', -, hc', hfirst⟩ := first_of_isName r.isName_new (hrest.stops_word hstops)
    have hlines : newlines r.new = newlines (first c s).lexeme := by
      rw [hold, newlines_of_isName r.isName_new, newlines_of_isName r.isName_old]
    refine ⟨c', s', ?_⟩
    rw [hfirst]
    refine ⟨rfl, ⟨hidentifier.symm, .inr ⟨hold, rfl⟩⟩, hlines, ?_, .letters hc hc'⟩
    simp only [Piece.scan, Piece.token?, hidentifier, hlines]

theorem not_fault_of_errors {line : Int} (h : (onward line (c :: s)).errors = []) :
    (∀ cause, (first c s).shape ≠ .fault cause) ∧
      (onward (line + newlines (first c s).lexeme) (first c s).rest).errors = [] := by
  rw [onward_cons] at h
  obtain ⟨hfirst, hrest⟩ := List.append_eq_nil_iff.mp h
  refine ⟨fun cause hshape => ?_, hrest⟩
  simp [Piece.scan, Piece.error?, hshape] at hfirst

/-- A source without faults in which tokens are respelled: pieces that are no tokens stay. -/
theorem onward_respelled {line : Int} {us : List Token} (hnone : (onward line s).errors = [])
    (hus : List.Forall₂ r.Respells (onward line s).tokens us) :
    ∃ s', onward line s' = ⟨us, [], (onward line s).endLine⟩ ∧
      List.Forall₂ (Piece.Respelled r) (pieces s) (pieces s') ∧ OpenAlike s s' := by
  -- The source is built from its end, as a piece can be respelled only in front of what follows it.
  induction s using pieces.induct generalizing line us with
  | case1 =>
      simp only [onward] at hus ⊢
      cases hus
      exact ⟨[], by simp only [onward], by simp [pieces], .nil⟩
  | case2 c s ih =>
      obtain ⟨hshape, hrest⟩ := not_fault_of_errors hnone
      rw [onward_cons, followedBy] at hus ⊢
      have hown := List.forall₂_take ((first c s).scan line).tokens.length hus
      have hlater := List.forall₂_drop ((first c s).scan line).tokens.length hus
      rw [List.take_left] at hown
      rw [List.drop_left] at hlater
      obtain ⟨q, hq, hpieces, halike⟩ := ih hrest hlater
      obtain ⟨c', s', rfl, hpiece, hlines, htokens, hopen⟩ := first_respelled hshape halike hown
      have herrors : ((first c' s').scan line).errors = [] :=
        scan_of_not_fault (fun cause => hpiece.shape ▸ hshape cause) line
      refine ⟨c' :: s', ?_, ?_, hopen⟩
      · rw [onward_cons, hlines, hq, followedBy, htokens, herrors, List.take_append_drop]
        rfl
      · rw [pieces, pieces]
        exact .cons hpiece hpieces

end Lox.Scan
