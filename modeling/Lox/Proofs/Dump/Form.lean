import Lox.Proofs.Number.Written
import Lox.Proofs.Text.Quoted
import Lox.Token

/-!
# Forms

A dumped tree is a text of words, literals and parentheses. A form is what stands in such a text: a
word, a literal, or a head with parts behind it. The text of a form tells which form it is and where
it ends.
-/

namespace Lox

open Number

/-- Bytes that neither end a word nor begin another kind of form. -/
def isPlain (b : UInt8) : Bool :=
  !(b == 32 || b == 40 || b == 41 || b == 34 || b == 10)

inductive Form where
  | word (text : Bytes)
  | literal (value : Literal)
  | node (head : Bytes) (parts : List Form)

namespace Form

mutual

def render : Form → Bytes
  | .word text => text
  | .literal value => value.dump
  | .node head parts => 40 :: head ++ renderAll parts

/-- The parts, each after a space, and the closing parenthesis. -/
def renderAll : List Form → Bytes
  | [] => [41]
  | part :: parts => Bytes.space :: part.render ++ renderAll parts

end

/-- The word cannot be taken for a literal. -/
structure IsWord (text : Bytes) : Prop where
  plain : text.all isPlain = true
  begins : ∃ b s, text = b :: s ∧ startsNumber b = false
  other : text ∉ [bytes "nil", bytes "true", bytes "false"]

/-- The literal is not NaN. -/
def IsLegible (value : Literal) : Prop :=
  ∀ x, value = .num x → x.isNaN = false

mutual

/-- Words are words, literals are not NaN, and no head contains a separator. -/
def Legible : Form → Prop
  | .word text => IsWord text
  | .literal value => IsLegible value
  | .node head parts => head.all isPlain = true ∧ LegibleAll parts

def LegibleAll : List Form → Prop
  | [] => True
  | part :: parts => part.Legible ∧ LegibleAll parts

end

/-! ### Runs of plain bytes -/

theorem run_unambiguous {s t r r' : Bytes} (hs : s.all isPlain = true)
    (ht : t.all isPlain = true) (hr : Scan.Stops isPlain r) (hr' : Scan.Stops isPlain r')
    (h : s ++ r = t ++ r') : s = t ∧ r = r' := by
  rw [List.all_eq_true] at hs ht
  have htake := congrArg (List.takeWhile isPlain) h
  have hdrop := congrArg (List.dropWhile isPlain) h
  rw [Scan.takeWhile_run hs hr, Scan.takeWhile_run ht hr'] at htake
  rw [Scan.dropWhile_run hs hr, Scan.dropWhile_run ht hr'] at hdrop
  exact ⟨htake, hdrop⟩

theorem isPlain_of_isNumberByte {b : UInt8} (h : isNumberByte b = true) : isPlain b = true := by
  rw [isPlain, Bool.not_eq_true', Bool.eq_false_iff]
  intro hstop
  simp only [Bool.or_eq_true, beq_iff_eq] at hstop
  rcases hstop with (((rfl | rfl) | rfl) | rfl) | rfl <;> exact absurd h (by decide)

/-! ### Literals -/

/-- Which literals begin with the byte. -/
def literalKind (b : UInt8) : Nat :=
  if b = 110 then 0 else if b = 116 then 1 else if b = 102 then 2 else if b = 34 then 3 else 4

def kindOf : Literal → Nat
  | .nil => 0
  | .bool true => 1
  | .bool false => 2
  | .str _ => 3
  | .num _ => 4

theorem literalKind_of_startsNumber {b : UInt8} (h : startsNumber b = true) :
    literalKind b = 4 := by
  have hne {c : UInt8} (hc : startsNumber c = false) : b ≠ c := by
    rintro rfl
    rw [h] at hc
    cases hc
  rw [literalKind, if_neg (hne rfl), if_neg (hne rfl), if_neg (hne rfl), if_neg (hne rfl)]

theorem exists_dump {value : Literal} (h : IsLegible value) :
    ∃ b s, value.dump = b :: s ∧ b ≠ 40 ∧ literalKind b = kindOf value := by
  cases value with
  | nil => exact ⟨110, bytes "il", rfl, by decide, rfl⟩
  | bool b =>
      cases b
      · exact ⟨102, bytes "alse", rfl, by decide, rfl⟩
      · exact ⟨116, bytes "rue", rfl, by decide, rfl⟩
  | str s => exact ⟨34, _, rfl, by decide, rfl⟩
  | num x =>
      obtain ⟨⟨b, s, hs, hb⟩, -⟩ := dumped_bytes (h x rfl)
      have hne : b ≠ 40 := by
        rintro rfl
        exact absurd hb (by decide)
      exact ⟨b, s, hs, hne, literalKind_of_startsNumber hb⟩

theorem kindOf_eq {v w : Literal} (hv : IsLegible v) (hw : IsLegible w) {r r' : Bytes}
    (h : v.dump ++ r = w.dump ++ r') : kindOf v = kindOf w := by
  obtain ⟨b, s, hb, -, hvkind⟩ := exists_dump hv
  obtain ⟨c, t, hc, -, hwkind⟩ := exists_dump hw
  rw [hb, hc] at h
  rw [← hvkind, ← hwkind, (List.cons.inj h).1]

/-- Literals of one kind are the same, but for strings and numbers. -/
theorem same_kind {v w : Literal} (h : kindOf v = kindOf w) :
    v = w ∨ (∃ s t, v = .str s ∧ w = .str t) ∨ ∃ x y, v = .num x ∧ w = .num y := by
  rcases v with _ | (_ | _) | x | s <;> rcases w with _ | (_ | _) | y | t
  case str.str => exact .inr (.inl ⟨s, t, rfl, rfl⟩)
  case num.num => exact .inr (.inr ⟨x, y, rfl, rfl⟩)
  all_goals first | exact .inl rfl | cases h

theorem plain_number {x : Number} (h : IsLegible (.num x)) :
    (Literal.num x).dump.all isPlain = true :=
  List.all_eq_true.mpr fun b hb => isPlain_of_isNumberByte ((dumped_bytes (h x rfl)).2 b hb)

/-- The text of a literal tells which it is and where it ends. -/
theorem literal_unambiguous {v w : Literal} (hv : IsLegible v) (hw : IsLegible w) {r r' : Bytes}
    (hr : Scan.Stops isPlain r) (hr' : Scan.Stops isPlain r')
    (h : v.dump ++ r = w.dump ++ r') : v = w ∧ r = r' := by
  rcases same_kind (kindOf_eq hv hw h) with rfl | ⟨s, t, rfl, rfl⟩ | ⟨x, y, rfl, rfl⟩
  · exact ⟨rfl, List.append_cancel_left h⟩
  · obtain ⟨rfl, hrest⟩ := quoted_unambiguous h
    exact ⟨rfl, hrest⟩
  · obtain ⟨hdump, hrest⟩ := run_unambiguous (plain_number hv) (plain_number hw) hr hr' h
    rw [write_dumped_injective (hv x rfl) (hw y rfl) hdump]
    exact ⟨rfl, hrest⟩

/-! ### Words -/

/-- Neither the names of literals nor the first byte of another literal make a word. -/
theorem IsWord.ne_dump {text : Bytes} (htext : IsWord text) {value : Literal}
    (hvalue : IsLegible value) {r r' : Bytes} (hr : Scan.Stops isPlain r)
    (hr' : Scan.Stops isPlain r') : text ++ r ≠ value.dump ++ r' := by
  intro h
  have hconstant {name : Bytes} (hname : name ∈ [bytes "nil", bytes "true", bytes "false"])
      (hplain : name.all isPlain = true) (h : text ++ r = name ++ r') : False := by
    obtain ⟨rfl, -⟩ := run_unambiguous htext.plain hplain hr hr' h
    exact htext.other hname
  obtain ⟨b, s, hb, hstart⟩ := htext.begins
  cases value with
  | nil => exact hconstant (by decide) (by decide) h
  | bool b => cases b <;> exact hconstant (by decide) (by decide) h
  | str t =>
      have hplain := List.all_eq_true.mp htext.plain b (hb ▸ List.mem_cons_self)
      rw [hb] at h
      obtain rfl : b = 34 := (List.cons.inj h).1
      exact absurd hplain (by decide)
  | num x =>
      obtain ⟨⟨c, t, hc, hnumber⟩, -⟩ := dumped_bytes (hvalue x rfl)
      rw [Literal.dump, hb, hc] at h
      obtain rfl : b = c := (List.cons.inj h).1
      rw [hnumber] at hstart
      cases hstart

/-! ### Forms -/

theorem stops_renderAll (parts : List Form) (r : Bytes) :
    Scan.Stops isPlain (renderAll parts ++ r) := by
  intro b hb
  cases parts with
  | nil =>
      cases hb
      rfl
  | cons part parts =>
      cases hb
      rfl

/-- Words and literals do not begin with a parenthesis. -/
theorem IsWord.ne_node {text : Bytes} (h : IsWord text) (r s : Bytes) : text ++ r ≠ 40 :: s := by
  obtain ⟨b, t, hb, -⟩ := h.begins
  have hplain := List.all_eq_true.mp h.plain b (hb ▸ List.mem_cons_self)
  rw [hb]
  intro heq
  obtain rfl : b = 40 := (List.cons.inj heq).1
  exact absurd hplain (by decide)

theorem IsLegible.ne_node {value : Literal} (h : IsLegible value) (r s : Bytes) :
    value.dump ++ r ≠ 40 :: s := by
  obtain ⟨b, t, hb, hne, -⟩ := exists_dump h
  rw [hb]
  exact fun heq => hne (List.cons.inj heq).1

mutual

/-- The text of a form tells which it is and where it ends. -/
theorem render_unambiguous (x y : Form) (hx : x.Legible) (hy : y.Legible) {r r' : Bytes}
    (hr : Scan.Stops isPlain r) (hr' : Scan.Stops isPlain r')
    (h : x.render ++ r = y.render ++ r') : x = y ∧ r = r' := by
  match x, y with
  | .word s, .word t =>
      obtain ⟨rfl, hrest⟩ := run_unambiguous hx.plain hy.plain hr hr' h
      exact ⟨rfl, hrest⟩
  | .word s, .literal w => exact absurd h (hx.ne_dump hy hr hr')
  | .literal v, .word t => exact absurd h.symm (hy.ne_dump hx hr' hr)
  | .literal v, .literal w =>
      obtain ⟨rfl, hrest⟩ := literal_unambiguous hx hy hr hr' h
      exact ⟨rfl, hrest⟩
  | .word s, .node head parts => exact absurd h (hx.ne_node r _)
  | .literal v, .node head parts => exact absurd h (hx.ne_node r _)
  | .node head parts, .word t => exact absurd h.symm (hy.ne_node r' _)
  | .node head parts, .literal w => exact absurd h.symm (hy.ne_node r' _)
  | .node head parts, .node other others =>
      simp only [render, List.cons_append, List.append_assoc, List.cons.injEq, true_and] at h
      obtain ⟨rfl, hparts⟩ := run_unambiguous hx.1 hy.1 (stops_renderAll parts r)
        (stops_renderAll others r') h
      obtain ⟨rfl, hrest⟩ := renderAll_unambiguous parts others hx.2 hy.2 hparts
      exact ⟨rfl, hrest⟩

theorem renderAll_unambiguous (xs ys : List Form) (hxs : LegibleAll xs) (hys : LegibleAll ys)
    {r r' : Bytes} (h : renderAll xs ++ r = renderAll ys ++ r') : xs = ys ∧ r = r' := by
  match xs, ys with
  | [], [] => exact ⟨rfl, (List.cons.inj h).2⟩
  | [], y :: ys => cases h
  | x :: xs, [] => cases h
  | x :: xs, y :: ys =>
      simp only [renderAll, List.cons_append, List.append_assoc, List.cons.injEq, true_and] at h
      obtain ⟨rfl, hparts⟩ := render_unambiguous x y hxs.1 hys.1 (stops_renderAll xs r)
        (stops_renderAll ys r') h
      obtain ⟨rfl, hrest⟩ := renderAll_unambiguous xs ys hxs.2 hys.2 hparts
      exact ⟨rfl, hrest⟩

end

/-! ### Line feeds -/

theorem ne_lineFeed_of_plain {text : Bytes} (h : text.all isPlain = true) :
    ∀ b ∈ text, b ≠ Bytes.lineFeed := by
  rintro b hb rfl
  exact absurd (List.all_eq_true.mp h _ hb) (by decide)

theorem ne_lineFeed_of_mem_dump {value : Literal} (h : IsLegible value) :
    ∀ b ∈ value.dump, b ≠ Bytes.lineFeed := by
  cases value with
  | nil => exact ne_lineFeed_of_plain (by decide)
  | bool b => cases b <;> exact ne_lineFeed_of_plain (by decide)
  | str s => exact ne_lineFeed_of_mem_quoted s
  | num x => exact ne_lineFeed_of_plain (plain_number h)

mutual

theorem ne_lineFeed_of_mem_render (x : Form) (h : x.Legible) :
    ∀ b ∈ x.render, b ≠ Bytes.lineFeed := by
  match x with
  | .word text => exact ne_lineFeed_of_plain h.plain
  | .literal value => exact ne_lineFeed_of_mem_dump h
  | .node head parts =>
      rw [render, List.cons_append, List.forall_mem_cons, List.forall_mem_append]
      exact ⟨by decide, ne_lineFeed_of_plain h.1, ne_lineFeed_of_mem_renderAll parts h.2⟩

theorem ne_lineFeed_of_mem_renderAll (parts : List Form) (h : LegibleAll parts) :
    ∀ b ∈ renderAll parts, b ≠ Bytes.lineFeed := by
  match parts with
  | [] => exact List.forall_mem_singleton.mpr (by decide)
  | part :: parts =>
      rw [renderAll, List.cons_append, List.forall_mem_cons, List.forall_mem_append]
      exact ⟨by decide, ne_lineFeed_of_mem_render part h.1, ne_lineFeed_of_mem_renderAll parts h.2⟩

end

end Form

end Lox
