import QbScript.Proofs.Source.Cut
import QbScript.Proofs.Text.Slice

/-!
# The tokens tile their source

Each token of a source stands in a part of its own, with nothing but layout between these parts, and
depends on nothing but this part.
-/

set_option autoImplicit false

namespace QbScript

/-- From an offset on, the source is layout, a token that its own text reads as, layout, and so on
to the end. -/
inductive Tiles (source : List UInt8) : Nat → List Lexeme → Prop
  | done {pos : Nat} {gap : String} (hs : Utf8.slice? source pos source.length = some gap)
      (hg : IsLayout gap.toList) : Tiles source pos []
  | step {pos : Nat} {l : Lexeme} {ls : List Lexeme} {gap text : String}
      (hs : Utf8.slice? source pos l.span.start = some gap) (hg : IsLayout gap.toList)
      (hne : l.span.start < l.span.stop)
      (ht : Utf8.slice? source l.span.start l.span.stop = some text)
      (hl : Lexeme.ofText text.toList = .ok [⟨l.token, ⟨0, l.span.length⟩⟩])
      (h : Tiles source l.span.stop ls) : Tiles source pos (l :: ls)

theorem FrontReads.size_pos {signed : Bool} {w rest : List Char} {t : Token}
    (h : FrontReads signed w rest t) : 0 < Utf8.size w := by
  obtain ⟨c, cs, rfl, -, -⟩ := h
  have := c.utf8Size_pos
  rw [Utf8.size_cons]
  omega

/-- The text of a token is a source of this token. -/
theorem FrontReads.ofText {w : List Char} {t : Token} (h : FrontReads true w [] t) :
    Lexeme.ofText w = .ok [⟨t, ⟨0, Utf8.size w⟩⟩] := by
  have hrun : Blank.run ([] ++ (w ++ [])) = ⟨0, false⟩ := by
    obtain ⟨c, cs, rfl, hf, -⟩ := h
    rw [List.nil_append, List.cons_append, Blank.run, Blank.runFrom_other hf]
  have hn := @Cursor.next?_of_frontReads [] w [] false t hrun h 0
  simp only [List.nil_append, List.append_nil, Utf8.size_nil, Nat.zero_add] at hn
  exact Lexeme.ofText_eq_ok_iff.mpr (.step hn (.done (Cursor.next?_nil _ _)))

theorem Cursor.isLayout_of_next?_eq_none {c : Cursor} (h : c.next? = none) : IsLayout c.rest := by
  obtain ⟨text, offset, op⟩ := c
  obtain ⟨gap, rest, unclosed, rfl, hlayout, hrun, -, -⟩ := Blank.exists_runFrom 0 text
  rw [Nat.zero_add] at hrun
  cases rest with
  | nil => rwa [List.append_nil]
  | cons ch rest =>
    rw [next?_append_cons hrun] at h
    cases h

theorem Lexes.tiles {c : Cursor} {ls : List Lexeme} (h : Lexes c ls) (before : List Char)
    (ho : c.offset = Utf8.size before) : Tiles (Utf8.encode (before ++ c.rest)) c.offset ls := by
  induction h generalizing before with
  | @done c h =>
    have hs := Utf8.slice?_encode before c.rest []
    rw [List.append_nil, ← Utf8.size_append, ← Utf8.length_encode (_ ++ _), ← ho] at hs
    exact .done hs (by simpa using Cursor.isLayout_of_next?_eq_none h)
  | @step c d l ls h _ ih =>
    obtain ⟨gap, w, ht⟩ := Cursor.exists_takes h
    have hoff : d.offset = Utf8.size (before ++ (gap ++ w)) := by
      rw [ht.offset, ho, Utf8.size_append, Utf8.size_append, Nat.add_assoc]
    have htail := ih _ hoff
    rw [List.append_assoc, List.append_assoc, ← ht.rest] at htail
    have hgap := Utf8.slice?_encode before gap (w ++ d.rest)
    have hw := Utf8.slice?_encode (before ++ gap) w d.rest
    rw [← ht.rest, ← ho] at hgap
    rw [List.append_assoc, ← ht.rest, Utf8.size_append, ← ho] at hw
    have hpos := ht.front.size_pos
    refine @Tiles.step _ _ l ls (String.ofList gap) (String.ofList w) ?_ ?_ ?_ ?_ ?_ ?_
    · rw [ht.span]
      exact hgap
    · simpa using ht.layout
    · simp only [ht.span, ht.offset]
      omega
    · simpa only [ht.span, ht.offset] using hw
    · rw [String.toList_ofList, ht.front.alone.ofText]
      simp only [Span.length, ht.span, ht.offset]
      congr 4
      omega
    · simpa only [ht.span] using htail

/-- The tokens stand in their order, apart from each other. -/
theorem Tiles.spans {source : List UInt8} {pos : Nat} {ls : List Lexeme}
    (h : Tiles source pos ls) :
    (∀ l ∈ ls, pos ≤ l.span.start ∧ l.span.start < l.span.stop ∧ l.span.stop ≤ source.length) ∧
      ls.Pairwise fun l l' => l.span.stop ≤ l'.span.start := by
  induction h with
  | done => exact ⟨by simp, .nil⟩
  | @step pos l ls gap text hs hg hne ht _ _ ih =>
    have hle := Utf8.le_of_slice?_eq_some hs
    have hin := Utf8.le_of_slice?_eq_some ht
    refine ⟨fun l' hl => ?_, .cons (fun l' hl => (ih.1 l' hl).1) ih.2⟩
    rcases List.mem_cons.mp hl with rfl | hl
    · exact ⟨hle.1, hne, hin.2⟩
    · obtain ⟨h1, h2, h3⟩ := ih.1 l' hl
      exact ⟨by omega, h2, h3⟩

/-- A source is tiled by its tokens. -/
theorem Lexeme.tiles_of_ofText {source : String} {ls : List Lexeme}
    (h : Lexeme.ofText source.toList = .ok ls) :
    Tiles (Utf8.ofString source) 0 ls ∧
      (∀ l ∈ ls, l.span.start < l.span.stop ∧ l.span.stop ≤ (Utf8.ofString source).length) ∧
      ls.Pairwise fun l l' => l.span.stop ≤ l'.span.start := by
  have ht : Tiles (Utf8.ofString source) 0 ls := (ofText_eq_ok_iff.mp h).tiles [] rfl
  exact ⟨ht, fun l hl => (ht.spans.1 l hl).2, ht.spans.2⟩

theorem Lexeme.tiles_of_ofText_signs :
    ∃ ls, Lexeme.ofText "%\"é\"/* ** */-1 - 2// -3\n<x \\\n-4".toList = .ok ls ∧
      Tiles (Utf8.ofString "%\"é\"/* ** */-1 - 2// -3\n<x \\\n-4") 0 ls ∧
      ls = [⟨.name "é", ⟨0, 5⟩⟩, ⟨.integer (-1), ⟨13, 15⟩⟩, ⟨.simple .minus, ⟨16, 17⟩⟩,
        ⟨.integer 2, ⟨18, 19⟩⟩, ⟨.simple .endOfLine, ⟨24, 25⟩⟩, ⟨.simple .lessThan, ⟨25, 26⟩⟩,
        ⟨.name "x", ⟨26, 27⟩⟩, ⟨.integer (-4), ⟨30, 32⟩⟩] := by
  have h : Lexeme.ofText "%\"é\"/* ** */-1 - 2// -3\n<x \\\n-4".toList =
      .ok [⟨.name "é", ⟨0, 5⟩⟩, ⟨.integer (-1), ⟨13, 15⟩⟩, ⟨.simple .minus, ⟨16, 17⟩⟩,
        ⟨.integer 2, ⟨18, 19⟩⟩, ⟨.simple .endOfLine, ⟨24, 25⟩⟩, ⟨.simple .lessThan, ⟨25, 26⟩⟩,
        ⟨.name "x", ⟨26, 27⟩⟩, ⟨.integer (-4), ⟨30, 32⟩⟩] := by decide +kernel
  exact ⟨_, h, (tiles_of_ofText h).1, rfl⟩

end QbScript
