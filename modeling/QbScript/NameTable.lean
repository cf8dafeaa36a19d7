import QbScript.Checksum
import QbScript.Text.Quoted
import Std.Data.TreeMap

/-!
# The table of names

Which name each checksum stands for. The first spelling of a name stays; a different name with the
same checksum is refused. Entries are listed by checksum, in ascending order.
-/

set_option autoImplicit false

namespace QbScript

structure Collision where
  checksum : Checksum
  existing : String
  incoming : String
  deriving DecidableEq

namespace Collision

def message (c : Collision) : String :=
  "checksum collision 0x" ++ c.checksum.digits ++ ": " ++ Quoted.text c.existing ++ " and "
    ++ Quoted.text c.incoming

end Collision

structure NameTable where
  names : Std.TreeMap Checksum String

namespace NameTable

def empty : NameTable := ⟨∅⟩

def get? (t : NameTable) (c : Checksum) : Option String := t.names[c]?

def insertAt (t : NameTable) (c : Checksum) (name : String) : Except Collision NameTable :=
  match t.get? c with
  | none => .ok ⟨t.names.insert c name⟩
  | some existing =>
    if Checksum.normalize existing = Checksum.normalize name then .ok t
    else .error ⟨c, existing, name⟩

/-- Enters `name` under its own checksum. -/
def insert (t : NameTable) (name : String) : Except Collision NameTable :=
  t.insertAt (Checksum.ofName name) name

def size (t : NameTable) : Nat := t.names.size

def isEmpty (t : NameTable) : Bool := t.names.isEmpty

def toList (t : NameTable) : List (Checksum × String) := t.names.toList

@[simp] theorem get?_empty (c : Checksum) : empty.get? c = none := by
  simp [empty, get?]

theorem get?_insertAt {t u : NameTable} {c : Checksum} {name : String}
    (h : t.insertAt c name = .ok u) (d : Checksum) :
    u.get? d = if c = d then some ((t.get? c).getD name) else t.get? d := by
  unfold insertAt at h
  split at h
  · rename_i hn
    obtain rfl := Except.ok.inj h
    simp only [get?, Std.TreeMap.getElem?_insert, Std.LawfulEqCmp.compare_eq_iff_eq]
    split
    · rename_i hd
      subst hd
      simp only [get?] at hn
      simp [hn]
    · rfl
  · rename_i existing hs
    split at h
    · obtain rfl := Except.ok.inj h
      split
      · rename_i hd
        subst hd
        simp [hs]
      · rfl
    · simp at h

theorem mem_toList_iff (t : NameTable) (c : Checksum) (name : String) :
    (c, name) ∈ t.toList ↔ t.get? c = some name := by
  simp [toList, get?, Std.TreeMap.mem_toList_iff_getElem?_eq_some]

theorem pairwise_toList (t : NameTable) : t.toList.Pairwise fun a b => a.1 < b.1 := by
  have h := Std.TreeMap.ordered_keys_toList (t := t.names)
  exact h.imp fun hab => Std.compare_eq_lt.mp hab

end NameTable

end QbScript
