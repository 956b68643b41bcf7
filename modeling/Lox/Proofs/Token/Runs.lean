import Mathlib.Data.List.TakeWhile
import Lox.Proofs.Token.Pieces

/-!
# Runs of bytes

Numbers and words go on for as long as the bytes are of one sort. Where such a run ends depends on
the byte behind it, and behind the whole digits of a number on the next two.
-/

namespace Lox.Scan

/-- The run of bytes with the property ends in front of the source. -/
def Stops (p : UInt8 → Bool) (s : Bytes) : Prop :=
  ∀ b ∈ s.head?, p b = false

section

variable {p : UInt8 → Bool}

theorem stops_dropWhile (p : UInt8 → Bool) (s : Bytes) : Stops p (s.dropWhile p) := by
  intro b hb
  have hhead := List.head?_dropWhile_not p s
  rw [Option.mem_def.mp hb] at hhead
  simpa using hhead

theorem takeWhile_run {run s : Bytes} (hrun : ∀ b ∈ run, p b = true) (hs : Stops p s) :
    (run ++ s).takeWhile p = run := by
  rw [List.takeWhile_append_of_pos hrun]
  cases s with
  | nil => simp
  | cons b s => simp [hs b rfl]

theorem dropWhile_run {run s : Bytes} (hrun : ∀ b ∈ run, p b = true) (hs : Stops p s) :
    (run ++ s).dropWhile p = s := by
  rw [List.dropWhile_append_of_pos hrun]
  cases s with
  | nil => rfl
  | cons b s => simp [hs b rfl]

end

variable {c : UInt8} {s q : Bytes}

theorem number_whole {run : Bytes} (hrun : ∀ b ∈ run, Bytes.isDigit b = true)
    (hs : Stops Bytes.isDigit s) (hpoint : ∀ t, s = 46 :: t → Stops Bytes.isDigit t) :
    number c (run ++ s) =
      ⟨.token .number (.num (.ofDecimal (Bytes.toNat (c :: run)) 0)), c :: run, s⟩ := by
  simp only [number, takeWhile_run hrun hs, dropWhile_run hrun hs]
  split
  case h_1 d t =>
    have hd : Bytes.isDigit d = false := hpoint _ rfl d rfl
    rw [if_neg (Bool.eq_false_iff.mp hd)]
  case h_2 => rfl

theorem number_fraction {run more : Bytes} {d : UInt8} (hrun : ∀ b ∈ run, Bytes.isDigit b = true)
    (hd : Bytes.isDigit d = true) (hmore : ∀ b ∈ more, Bytes.isDigit b = true)
    (hs : Stops Bytes.isDigit s) :
    number c (run ++ 46 :: d :: (more ++ s)) =
      ⟨.token .number (.num (.ofDecimal (Bytes.toNat (c :: run ++ d :: more)) (d :: more).length)),
        c :: run ++ 46 :: d :: more, s⟩ := by
  have hstops : Stops Bytes.isDigit (46 :: d :: (more ++ s)) := by
    intro b hb
    cases hb
    rfl
  simp only [number, takeWhile_run hrun hstops, dropWhile_run hrun hstops, takeWhile_run hmore hs,
    dropWhile_run hmore hs, if_pos hd]

/-- The digits of a number, and those behind its point if there are any. -/
theorem number_cases (s : Bytes) :
    (∃ run t, s = run ++ t ∧ (∀ b ∈ run, Bytes.isDigit b = true) ∧ Stops Bytes.isDigit t ∧
      ∀ u, t = 46 :: u → Stops Bytes.isDigit u) ∨
    ∃ run d more t, s = run ++ 46 :: d :: (more ++ t) ∧ (∀ b ∈ run, Bytes.isDigit b = true) ∧
      Bytes.isDigit d = true ∧ (∀ b ∈ more, Bytes.isDigit b = true) ∧ Stops Bytes.isDigit t := by
  have hsplit := List.takeWhile_append_dropWhile (p := Bytes.isDigit) (l := s)
  by_cases hfraction : ∃ d t, s.dropWhile Bytes.isDigit = 46 :: d :: t ∧ Bytes.isDigit d = true
  · obtain ⟨d, t, hdrop, hd⟩ := hfraction
    have hmore := List.takeWhile_append_dropWhile (p := Bytes.isDigit) (l := t)
    refine .inr ⟨s.takeWhile Bytes.isDigit, d, t.takeWhile Bytes.isDigit,
      t.dropWhile Bytes.isDigit, ?_, fun _ => List.mem_takeWhile_imp, hd,
      fun _ => List.mem_takeWhile_imp, stops_dropWhile _ t⟩
    rw [hmore, ← hdrop, hsplit]
  · refine .inl ⟨_, _, hsplit.symm, fun _ => List.mem_takeWhile_imp, stops_dropWhile _ s, ?_⟩
    intro u hu b hb
    obtain ⟨u, rfl⟩ := List.head?_eq_some_iff.mp hb
    exact Bool.eq_false_iff.mpr fun hdigit => hfraction ⟨b, u, hu, hdigit⟩

theorem operator_of_head_ne (long short : Token.Kind) (h : s.head? ≠ some 61) :
    operator long short c s = ⟨.token short .nil, [c], s⟩ := by
  unfold operator
  split
  · exact absurd rfl h
  · rfl

theorem slash_of_head_ne (h : s.head? ≠ some 47) : slash c s = ⟨.token .slash .nil, [c], s⟩ := by
  unfold slash
  split
  · exact absurd rfl h
  · rfl

theorem isDigit_of_isLetter {b : UInt8} (h : Bytes.isLetter b = true) :
    Bytes.isDigit b = false := by
  unfold Bytes.isLetter at h
  unfold Bytes.isDigit
  grind

theorem first_of_isLetter (hc : Bytes.isLetter c = true) : first c s = word c s := by
  have hdigit := isDigit_of_isLetter hc
  unfold first
  split
  case h_21 => rw [if_neg (Bool.eq_false_iff.mp hdigit), if_pos hc]
  all_goals cases hc

theorem word_append {run : Bytes} (hrun : ∀ b ∈ run, Bytes.isWordByte b = true)
    (hq : Stops Bytes.isWordByte q) :
    word c (run ++ q) = ⟨.token (.ofWord (c :: run)) .nil, c :: run, q⟩ := by
  simp only [word, takeWhile_run hrun hq, dropWhile_run hrun hq]

end Lox.Scan
