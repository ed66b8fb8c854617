import LithiumTools.Proof.Archive
import LithiumTools.Proof.RoundTrip

/-!
# What rcomp overwrites

`File::create` runs before the data going into the file is read: a file compressed onto itself,
an output inside the input directory, and a failed plain decompression.
-/

namespace LithiumTools

open Fs

variable (df : Deflate) (tf : TarFormat) {fs fs₁ : Fs} {input output : List Char}
  {rpIn : List Name} {d : Bytes} {m : Metadata}

/-- **Compressing a file onto itself empties it:** `File::create` empties the input before the copy
reads it. -/
theorem compressPath_onto_input (level : Nat)
    (hin : fs.stat (sysPath input) = .ok (rpIn, .file d m))
    (hout : fs.locate true (sysPath output) = .ok rpIn) :
    ∃ fs', compressPath df tf (fun _ => none) input output level fs = .ok () fs' ∧
      fs.Updates fs' rpIn (some (.file (gzipStream df level []) { m with mtime := fs.now })) := by
  obtain ⟨fs₁, hcreate⟩ := createTrunc_of_locate hout (.inr ⟨d, m, (get_of_stat hin).2⟩)
  obtain ⟨-, hnow₁, m₀, hm₀, hu, hold⟩ := createTrunc_ok hcreate
  have hm : m₀ = { m with mtime := fs.now } := by
    rcases hold with ⟨h, -⟩ | ⟨d', m', h, rfl⟩ <;> rw [(get_of_stat hin).2] at h <;> cases h
    rfl
  subst hm
  have hread : fs₁.readAt rpIn = .ok ([], { m with mtime := fs.now }) := by
    simp [readAt, hu.get_eq]
  obtain ⟨fs₂, fs₃, hrun, hu₂, hg₂, hfin, hu₃, -⟩ :=
    encodeThenDrop_complete df level [] hu.get_eq (hm₀.trans hnow₁.symm)
  have hstat : fs₂.stat (sysPath output) =
      .ok (rpIn, .file (gzipWrites df level []).flatten { m with mtime := fs.now }) :=
    stat_of_get (locate_of_grows ((grows_of_createTrunc hcreate).trans hg₂) hout)
      (by simpa using hu₂.get_eq)
  refine ⟨fs₃, ?_, by simpa using hu.trans hu₃⟩
  rw [compressPath_of_not_isDir df tf _ level (isDir_of_stat_file hin)]
  simp only [compressFile, bind, EStateM.bind, Fs.query, Fs.call, hin, hcreate, hread, hrun, hstat,
    hfin]
  rfl

theorem compressPath_onto_input_oneFile :
    oneFileFs.stat (sysPath "/a".toList) = .ok ([⟨['a'], by decide⟩], .file [1, 2] .created) ∧
    oneFileFs.locate true (sysPath "/a".toList) = .ok [⟨['a'], by decide⟩] ∧
    ∃ fs', compressPath Deflate.escaped StandIn.tarFormat (fun _ => none) "/a".toList "/a".toList 6
        oneFileFs = .ok () fs' ∧
      oneFileFs.Updates fs' [⟨['a'], by decide⟩] (some (.file (gzipStream Deflate.escaped 6 [])
        { Metadata.created with mtime := oneFileFs.now })) :=
  have hin : oneFileFs.stat (sysPath "/a".toList) =
      .ok ([⟨['a'], by decide⟩], .file [1, 2] .created) := rfl
  have hout : oneFileFs.locate true (sysPath "/a".toList) = .ok [⟨['a'], by decide⟩] := rfl
  ⟨hin, hout, compressPath_onto_input Deflate.escaped StandIn.tarFormat 6 hin hout⟩

end LithiumTools
