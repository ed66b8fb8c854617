import LithiumTools.Proof.Compress
import LithiumTools.Proof.Unpack

/-!
# Compressing and decompressing again

`compress_path` chooses the container by what the input is, `decompress_file` by the name.
-/

namespace LithiumTools

open Fs

variable (df : Deflate) (tf : TarFormat)

section Plain

variable {fs fs₁ : Fs}

theorem isDir_of_stat_file {p : List Component} {rp : List Name} {d : Bytes} {m : Metadata}
    (h : fs.stat p = .ok (rp, .file d m)) : fs.isDir p = false := by
  simp [isDir, h]

theorem compressPath_of_not_isDir (faults : Nat → Option Error) {input output : List Char}
    (level : Nat) (h : fs.isDir (sysPath input) = false) :
    compressPath df tf faults input output level fs =
      compressFile df faults input output level fs := by
  simp [compressPath, h]

theorem free_of_updates_file {rp q : List Name} {v : Node} (hu : fs.Updates fs₁ rp (some v))
    (hv : v.entries = []) (hvfile : ∃ d m, v = .file d m)
    (hq : fs.get q = none ∨ ∃ d m, fs.get q = some (.file d m)) :
    fs₁.get q = none ∨ ∃ d m, fs₁.get q = some (.file d m) := by
  by_cases hp : rp <+: q
  · obtain ⟨r, rfl⟩ := hp
    by_cases hr : r = []
    · subst hr
      obtain ⟨d, m, rfl⟩ := hvfile
      exact .inr ⟨d, m, by simpa using hu.get_eq⟩
    · have hk := hu.kindAt_below (by simpa using hv) hr
      exact .inl (by simpa [kindAt] using hk)
  · rcases hq with hq | ⟨d, m, hq⟩
    · have hk := hu.kindAt_eq hp
      rw [show fs.kindAt q = none by simp [kindAt, hq]] at hk
      exact .inl (by simpa [kindAt] using hk)
    · exact .inr ⟨d, m, get_of_updates_file hu hp hq⟩

end Plain

section TarName

variable {fs : Fs}

end TarName

end LithiumTools
