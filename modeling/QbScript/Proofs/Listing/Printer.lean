import QbScript.Proofs.Listing.Elements
import QbScript.Proofs.Listing.Sheet

/-!
# Printing in one pass

A listing can be printed element by element. The printer counts what the words of its line close and
what they open, and weighs the two when the line is written: then it knows how deep the line is and
how deep the next one starts. What it prints is the text of the sheet.
-/

set_option autoImplicit false

namespace QbScript

/-- A printer in the middle of a line, with the text of the lines before it. -/
structure Printer where
  text : String
  line : Line
  depth : Int
  /-- What the words of the line close, as a negative number, and what they open. -/
  closed : Int
  opened : Int
  endsScript : Bool

namespace Printer

def start : Printer := ⟨"", [], 0, 0, 0, false⟩

def addWord (p : Printer) (w : Word) : Printer :=
  { p with
    line := p.line ++ [w]
    depth := p.depth + w.shift.level
    closed := p.closed + min w.shift.balance 0
    opened := p.opened + max w.shift.balance 0
    endsScript := p.endsScript || w.shift.endsScript }

/-- Writes the line without its end. Its balance moves the line itself if it closes more than it
opens, and otherwise only those after it; they are never above the first level. -/
def writeLine (indent : String) (p : Printer) : Printer :=
  let net := p.closed + p.opened
  let own := if net < 0 then p.depth + net else p.depth
  { p with
    text := if p.line.isEmpty then p.text
      else p.text ++ (String.join (List.replicate own.toNat indent) ++
        " ".intercalate (p.line.map Word.text))
    line := []
    depth := max (if 0 < net then own + net else own) 0
    closed := 0
    opened := 0 }

def breakLine (p : Printer) : Printer :=
  { p with text := p.text ++ (if p.endsScript then "\n\n" else "\n"), endsScript := false }

def endLine (indent : String) (p : Printer) : Printer := (p.writeLine indent).breakLine

def add (indent : String) (p : Printer) : Element → Printer
  | .word w => p.addWord w
  | .lineEnd => p.endLine indent

/-- The text if nothing more is printed. -/
def finish (indent : String) (p : Printer) : String :=
  Sheet.withoutFinalBlank (p.writeLine indent).text

end Printer

namespace Sheet

def addLine (l : Line) : Sheet → Sheet
  | ⟨[], last⟩ => ⟨[], l ++ last⟩
  | ⟨k :: lines, last⟩ => ⟨(l ++ k) :: lines, last⟩

def append (s t : Sheet) : Sheet :=
  ⟨s.lines ++ (t.addLine s.last).lines, (t.addLine s.last).last⟩

theorem addLine_nil (s : Sheet) : s.addLine [] = s := by
  rcases s with ⟨_ | _, _⟩ <;> rfl

theorem addLine_word (l : Line) (w : Word) (es : List Element) :
    (ofElements (.word w :: es)).addLine l = (ofElements es).addLine (l ++ [w]) := by
  rw [ofElements_word]
  rcases ofElements es with ⟨_ | _, _⟩ <;> simp [addWord, addLine]

theorem ofElements_append (es es' : List Element) :
    ofElements (es ++ es') = (ofElements es).append (ofElements es') := by
  induction es with
  | nil => exact (addLine_nil _).symm
  | cons e es ih =>
    cases e with
    | lineEnd => exact congrArg (fun s : Sheet => (⟨[] :: s.lines, s.last⟩ : Sheet)) ih
    | word w =>
      rw [List.cons_append, ofElements_word, ofElements_word, ih]
      rcases ofElements es with ⟨_ | _, _⟩ <;> rcases ofElements es' with ⟨_ | _, _⟩ <;> rfl

theorem length_lines_ofElements (es : List Element) :
    (ofElements es).lines.length = es.count .lineEnd := by
  induction es with
  | nil => rfl
  | cons e es ih =>
    cases e with
    | lineEnd =>
      rw [List.count_cons_self, ← ih]
      rfl
    | word w =>
      rw [List.count_cons_of_ne (by simp), ofElements_word, ← ih]
      rcases ofElements es with ⟨_ | _, _⟩ <;> rfl

/-- The lines of elements that end a line are the first of those with more elements. -/
theorem take_lines_ofElements {es : List Element} (es' : List Element)
    (h : (ofElements es).last = []) :
    (ofElements (es ++ es')).lines.take (es.count .lineEnd) = (ofElements es).lines := by
  rw [ofElements_append, append, h, addLine_nil, ← length_lines_ofElements, List.take_left]

end Sheet

namespace Printer

variable {p : Printer} {base : Nat}

/-- The counters of a printer, from the depth before its line and the words on the line. -/
structure OnLine (p : Printer) (base : Nat) : Prop where
  depth : p.depth = base + p.line.shift.level
  balance : p.closed + p.opened = p.line.shift.balance
  endsScript : p.endsScript = p.line.shift.endsScript

theorem onLine_start : start.OnLine 0 := ⟨rfl, rfl, rfl⟩

theorem OnLine.addWord (h : p.OnLine base) (w : Word) : (p.addWord w).OnLine base := by
  have hshift : (p.line ++ [w]).shift = p.line.shift.add w.shift := by
    rw [Line.shift, List.foldl_append]
    rfl
  have hdepth := h.depth
  have hbalance := h.balance
  refine ⟨?_, ?_, ?_⟩ <;> simp only [Printer.addWord, hshift, Shift.add]
  · omega
  · omega
  · rw [h.endsScript]

variable (indent : String)

theorem OnLine.text_writeLine (h : p.OnLine base) :
    (p.writeLine indent).text = p.text ++ p.line.text indent base := by
  have hdepth := h.depth
  have hbalance := h.balance
  have hown : (if p.closed + p.opened < 0 then p.depth + (p.closed + p.opened)
      else p.depth).toNat = p.line.ownDepth base := by
    rw [Line.ownDepth]
    split <;> congr 1 <;> omega
  unfold writeLine Line.text
  dsimp only
  rw [hown]
  split
  · rw [String.append_empty]
  · rfl

theorem OnLine.depth_writeLine (h : p.OnLine base) :
    (p.writeLine indent).depth = p.line.nextDepth base := by
  have hdepth := h.depth
  have hbalance := h.balance
  rw [Line.nextDepth, Int.toNat_eq_max, writeLine]
  dsimp only
  split <;> split <;> omega

theorem OnLine.text_endLine (h : p.OnLine base) :
    (p.endLine indent).text = p.text ++ (p.line.text indent base ++ p.line.ending) := by
  have hends : (p.writeLine indent).endsScript = p.line.shift.endsScript := h.endsScript
  rw [endLine, breakLine, ← String.append_assoc, ← h.text_writeLine indent, Line.ending, hends]

theorem OnLine.endLine (h : p.OnLine base) :
    (p.endLine indent).OnLine (p.line.nextDepth base) := by
  refine ⟨?_, rfl, rfl⟩
  have hdepth : (p.endLine indent).depth = p.line.nextDepth base := h.depth_writeLine indent
  rw [hdepth]
  exact (Int.add_zero _).symm

/-- What a printer prints of more elements: the lines of their sheet, with the words that it has in
front of the first of them. -/
theorem OnLine.foldl_add (h : p.OnLine base) (es : List Element) :
    (es.foldl (add indent) p).text = p.text ++ String.join
        (Sheet.linesFrom indent [] base ((Sheet.ofElements es).addLine p.line).lines).1 ∧
      (es.foldl (add indent) p).line = ((Sheet.ofElements es).addLine p.line).last ∧
      (es.foldl (add indent) p).OnLine
        (Sheet.linesFrom indent [] base ((Sheet.ofElements es).addLine p.line).lines).2 := by
  induction es generalizing p base with
  | nil => exact ⟨(String.append_empty).symm, (List.append_nil _).symm, h⟩
  | cons e es ih =>
    rw [List.foldl_cons]
    cases e with
    | word w =>
      rw [Sheet.addLine_word]
      exact ih (h.addWord w)
    | lineEnd =>
      obtain ⟨htext, hline, hend⟩ := ih (h.endLine indent)
      rw [show (p.endLine indent).line = [] from rfl, Sheet.addLine_nil] at htext hline hend
      have hsheet : (Sheet.ofElements (.lineEnd :: es)).addLine p.line =
          ⟨p.line :: (Sheet.ofElements es).lines, (Sheet.ofElements es).last⟩ := by
        have hbreak : Sheet.ofElements (.lineEnd :: es) =
            ⟨[] :: (Sheet.ofElements es).lines, (Sheet.ofElements es).last⟩ := rfl
        rw [hbreak, Sheet.addLine, List.append_nil]
      have hlines := @linesFrom_eq indent [p.line.text indent base ++ p.line.ending]
        (p.line.nextDepth base) (Sheet.ofElements es).lines
      rw [hsheet]
      refine ⟨?_, hline, ?_⟩
      · rw [Sheet.linesFrom, hlines.1, List.reverse_singleton, List.singleton_append,
          String.join_cons, ← String.append_assoc, ← h.text_endLine]
        exact htext
      · rw [Sheet.linesFrom, hlines.2]
        exact hend

/-- The text of a sheet is what is printed of its elements. -/
theorem finish_foldl_add (es : List Element) :
    (es.foldl (add indent) start).finish indent = (Sheet.ofElements es).text indent := by
  obtain ⟨htext, hline, hend⟩ := onLine_start.foldl_add indent es
  rw [show start.line = [] from rfl, Sheet.addLine_nil] at htext hline hend
  rw [finish, hend.text_writeLine, htext, hline, Sheet.text]
  dsimp only
  rw [String.join_append, String.join_cons, String.join_nil, String.append_empty]
  exact congrArg Sheet.withoutFinalBlank (congrArg (· ++ _) String.empty_append)

end Printer

end QbScript
