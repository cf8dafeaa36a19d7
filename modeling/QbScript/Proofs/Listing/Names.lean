import QbScript.Proofs.Listing.Delimited
import QbScript.Proofs.Script.Mirror
import QbScript.Proofs.Source.Words

/-!
# Names of a listing

Whatever a stream has in its table, the names that are kept stand under their own checksums, and
what is listed for a checksum is read back as a name with that checksum.
-/

set_option autoImplicit false

namespace QbScript

namespace Survey

variable {s : Survey}

end Survey

theorem ofFindings_of_resolve {b : Bytecode} {s : Survey} (h : (resolve b).result = .ok s) :
    s = Survey.ofFindings b.findings.found := by
  unfold resolve at h
  dsimp only at h
  split at h
  · cases h
  · exact (Except.ok.inj h).symm

def ReadsOne (text : String) (t : Token) : Prop :=
  (Lexeme.ofText text.toList).map (List.map Lexeme.token) = .ok [t]

theorem readsOne_of_frontReads {text : String} {t : Token}
    (h : FrontReads true text.toList [] t) : ReadsOne text t := by
  have hs : Spells false ([] ++ (text.toList ++ [])) [t] := .step isGap_nil h .done
  rw [List.nil_append, List.append_nil] at hs
  obtain ⟨ls, hl, ht⟩ := hs.exists_ofText
  exact map_eq_ok_iff.mpr ⟨ls, hl, ht⟩

namespace Name.Ref

variable {names : NameTable} {c : Checksum}

/-- What refers to the checksum: the checksum or a name that has it. -/
def Denotes (r : Name.Ref) (c : Checksum) : Prop :=
  r = .checksum c ∨ ∃ name, r = .text name ∧ Checksum.ofName name = c

end Name.Ref

end QbScript
