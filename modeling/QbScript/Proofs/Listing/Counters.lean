import QbScript.Proofs.Listing.Printer

/-!
# Counters of 32 bits

A printer keeps its counters in words of 32 bits. What becomes of a sum that does not fit in one
depends on how the printer is built: the printing stops, or the sum is reduced to a word. A printer
whose sums all fit prints what one without a bound prints.
-/

set_option autoImplicit false

namespace QbScript

/-- What becomes of a sum of counters, if the printing goes on. -/
abbrev Sums := Int → Option Int

namespace Sums

def checked : Sums := fun n => if -0x80000000 ≤ n ∧ n < 0x80000000 then some n else none

def wrapping : Sums := fun n => some (n.bmod 0x100000000)

def Exact (sums : Sums) : Prop := ∀ n, -0x80000000 ≤ n → n < 0x80000000 → sums n = some n

theorem exact_checked : checked.Exact := fun _ hlow hhigh => if_pos ⟨hlow, hhigh⟩

theorem exact_wrapping : wrapping.Exact := by
  intro n hlow hhigh
  rw [wrapping, Int.bmod_eq_of_le (by omega) (by omega)]

theorem Exact.of_natAbs {sums : Sums} (h : sums.Exact) {n : Int} (hn : n.natAbs < 0x80000000) :
    sums n = some n :=
  h n (by omega) (by omega)

end Sums

namespace Printer

section
variable (sums : Sums)

def countWord (p : Printer) (w : Word) : Option Printer := do
  let depth ← sums (p.depth + w.shift.level)
  let closed ← sums (p.closed + min w.shift.balance 0)
  let opened ← sums (p.opened + max w.shift.balance 0)
  return { p.addWord w with depth, closed, opened }

def countLine (indent : String) (p : Printer) : Option Printer := do
  let net ← sums (p.closed + p.opened)
  let own ← if net < 0 then sums (p.depth + net) else some p.depth
  let next ← if 0 < net then sums (own + net) else some own
  return { p with
    text := if p.line.isEmpty then p.text
      else p.text ++ (String.join (List.replicate own.toNat indent) ++
        " ".intercalate (p.line.map Word.text))
    line := []
    depth := max next 0
    closed := 0
    opened := 0 }

def count (indent : String) (p : Printer) : Element → Option Printer
  | .word w => p.countWord sums w
  | .lineEnd => (p.countLine sums indent).map breakLine

/-- The text if nothing more is printed; a line without words is not written. -/
def countFinish (indent : String) (p : Printer) : Option String :=
  if p.line.isEmpty then some (Sheet.withoutFinalBlank p.text)
  else (p.countLine sums indent).map fun q => Sheet.withoutFinalBlank q.text

end

/-- How far the counters are from zero. -/
def spread (p : Printer) : Nat := p.depth.natAbs + p.closed.natAbs + p.opened.natAbs

theorem spread_addWord (p : Printer) (w : Word) :
    (p.addWord w).spread ≤ p.spread + (w.shift.level.natAbs + w.shift.balance.natAbs) := by
  simp only [spread, addWord]
  omega

theorem spread_endLine (indent : String) (p : Printer) :
    (p.endLine indent).spread ≤ p.spread := by
  simp only [spread, endLine, breakLine, writeLine]
  split <;> split <;> omega

section
variable {sums : Sums} (hs : sums.Exact) (indent : String) {p : Printer}
include hs

theorem countWord_eq {w : Word} (h : (p.addWord w).spread < 0x80000000) :
    p.countWord sums w = some (p.addWord w) := by
  simp only [spread, addWord] at h
  simp only [countWord]
  rw [hs.of_natAbs (by omega), hs.of_natAbs (by omega), hs.of_natAbs (by omega)]
  rfl

theorem countLine_eq (h : p.spread < 0x80000000) :
    p.countLine sums indent = some (p.writeLine indent) := by
  rw [spread] at h
  have hnet : sums (p.closed + p.opened) = some (p.closed + p.opened) := hs.of_natAbs (by omega)
  have hall : sums (p.depth + (p.closed + p.opened)) = some (p.depth + (p.closed + p.opened)) :=
    hs.of_natAbs (by omega)
  simp only [countLine, writeLine, hnet, Option.bind_eq_bind, Option.bind_some]
  by_cases hneg : p.closed + p.opened < 0
  · have hpos : ¬ 0 < p.closed + p.opened := by omega
    simp only [if_pos hneg, if_neg hpos, hall, Option.bind_some]
    rfl
  · by_cases hpos : 0 < p.closed + p.opened
    · simp only [if_neg hneg, if_pos hpos, hall, Option.bind_some]
      rfl
    · simp only [if_neg hneg, if_neg hpos]
      rfl

theorem count_eq {e : Element} (h : p.spread < 0x80000000)
    (he : (p.add indent e).spread < 0x80000000) :
    p.count sums indent e = some (p.add indent e) := by
  cases e with
  | word w => exact countWord_eq hs he
  | lineEnd => rw [count, countLine_eq hs indent h]; rfl

theorem countFinish_eq (h : p.spread < 0x80000000) :
    p.countFinish sums indent = some (p.finish indent) := by
  unfold countFinish finish
  split
  · rename_i hline
    rw [writeLine, if_pos hline]
  · rw [countLine_eq hs indent h]
    rfl

end

end Printer

end QbScript
