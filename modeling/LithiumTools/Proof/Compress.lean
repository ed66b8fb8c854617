import LithiumTools.Compressor
import LithiumTools.Proof.Calls

/-!
# Compressing: what reaches the output

The writes of the copy, whose failure is returned, then those of the finish in `Drop`, whose
failure is lost.
-/

namespace LithiumTools

open Fs

variable (df : Deflate) (tf : TarFormat)

section Writes

variable {faults : Nat → Option Error} {rp : List Name} {fs : Fs}

theorem Fs.Updates.refl_file {d : Bytes} {m : Metadata} (h : fs.get rp = some (.file d m)) :
    fs.Updates fs rp (some (.file d m)) :=
  ⟨rfl, h, fun _ _ => rfl⟩

theorem writeChunks_ok (i : Nat) (cs : List Bytes) {d : Bytes} {m : Metadata}
    (hfree : ∀ k, i ≤ k → k < i + cs.length → faults k = none) (h : fs.get rp = some (.file d m))
    (hm : m.mtime = fs.now) :
    ∃ fs', writeChunks faults rp i cs fs = .ok (i + cs.length) fs' ∧
      fs.Updates fs' rp (some (.file (d ++ cs.flatten) m)) ∧ fs.Grows fs' ∧ fs'.now = fs.now := by
  induction cs generalizing i fs d with
  | nil => exact ⟨fs, rfl, by simpa using Fs.Updates.refl_file h, Grows.refl fs, rfl⟩
  | cons c cs ih =>
    have hi : faults i = none := hfree i le_rfl (by simp)
    have hu := appendAt_updates h c
    rw [Metadata.stamp_eq hm] at hu
    obtain ⟨fs', hrun, hu', hg', hnow⟩ := ih (i + 1) (fun k hk hk' => hfree k (by omega)
      (by simp at hk' ⊢; omega)) hu.get_eq (by simp [hm])
    refine ⟨fs', ?_, by simpa using hu.trans hu', (grows_appendAt fs rp c).trans hg',
      by simp [hnow]⟩
    simp only [writeChunks, hi]
    rw [hrun]
    simp only [List.length_cons]
    congr 1
    omega

theorem encodeThenDrop_ok (level : Nat) (data : Bytes) {d : Bytes} {m : Metadata}
    (hcopy : ∀ k < (gzipWrites df level data).length, faults k = none)
    (h : fs.get rp = some (.file d m)) (hm : m.mtime = fs.now) :
    ∃ fs', fs.Updates fs' rp (some (.file (d ++ (gzipWrites df level data).flatten) m)) ∧
      fs.Grows fs' ∧ fs'.now = fs.now ∧ ∀ next : Nat → EStateM Error Fs Unit,
      encodeThenDrop df faults rp level data next fs =
        next (gzipWrites df level data).length fs' := by
  obtain ⟨fs', hrun, hu, hg, hnow⟩ := writeChunks_ok 0 (gzipWrites df level data)
    (fun k _ hk => hcopy k (by simpa using hk)) h hm
  refine ⟨fs', hu, hg, hnow, fun next => ?_⟩
  simp only [encodeThenDrop, bind, EStateM.bind, attempt, hrun, Nat.zero_add]

/-- With no write failing, the copy and then the finish of the drop leave the whole stream. -/
theorem encodeThenDrop_complete (level : Nat) (data : Bytes) {d : Bytes} {m : Metadata}
    (h : fs.get rp = some (.file d m)) (hm : m.mtime = fs.now) :
    ∃ fs₂ fs₃, (∀ next : Nat → EStateM Error Fs Unit,
        encodeThenDrop df (fun _ => none) rp level data next fs =
          next (gzipWrites df level data).length fs₂) ∧
      fs.Updates fs₂ rp (some (.file (d ++ (gzipWrites df level data).flatten) m)) ∧
      fs.Grows fs₂ ∧
      dropEncoder (fun _ => none) rp (gzipWrites df level data).length
        (gzipFinishWrites df level data) fs₂ = .ok () fs₃ ∧
      fs.Updates fs₃ rp (some (.file (d ++ gzipStream df level data) m)) ∧ fs.Grows fs₃ := by
  obtain ⟨fs₂, hu₂, hg₂, hnow₂, hrun⟩ := encodeThenDrop_ok df level data (fun _ _ => rfl) h hm
  obtain ⟨fs₃, hfin, hu₃, hg₃, -⟩ := writeChunks_ok (gzipWrites df level data).length
    (gzipFinishWrites df level data) (fun _ _ _ => rfl) hu₂.get_eq (hm.trans hnow₂.symm)
  refine ⟨fs₂, fs₃, hrun, hu₂, hg₂, ?_, ?_, hg₂.trans hg₃⟩
  · simp only [dropEncoder, discard, Functor.mapConst, Function.comp_apply, Function.const,
      EStateM.map, attempt, hfin]
  · rw [← flatten_gzipWrites_append, List.flatten_append, ← List.append_assoc]
    exact hu₂.trans hu₃

end Writes

/-! ### `compress_file` -/

section CompressFile

variable {faults : Nat → Option Error} {fs fs₁ : Fs} {input output : List Char} {level : Nat}
  {rpIn rpOut : List Name} {d : Bytes} {m : Metadata}

theorem get_of_updates_file {rp q : List Name} {v : Option Node} {fs' : Fs}
    (hu : fs.Updates fs' rp v) (hq : ¬ rp <+: q) (h : fs.get q = some (.file d m)) :
    fs'.get q = some (.file d m) := by
  have := hu.shapeAt_eq q hq
  simp only [shapeAt, h, Option.map_some'] at this
  cases h' : fs'.get q with
  | none => simp [h'] at this
  | some nd => cases nd <;> simp_all [Node.shape]

theorem createTrunc_of_locate {p : List Component} (hloc : fs.locate true p = .ok rpOut)
    (hfree : fs.get rpOut = none ∨ ∃ d m, fs.get rpOut = some (.file d m)) :
    ∃ fs₁, fs.createTrunc p = .ok (fs₁, rpOut) := by
  simp only [createTrunc, bind, Except.bind, hloc]
  split
  · exact ⟨_, rfl⟩
  · exact ⟨_, rfl⟩
  · next nd hnd hget =>
    rcases hfree with h | ⟨d, m, h⟩
    · simp [h] at hget
    · rw [h, Option.some.injEq] at hget
      exact absurd hget.symm (hnd d m)

end CompressFile

/-! ### `compress_dir` -/

section CompressDir

variable {fs fs₁ : Fs} {input output : List Char} {rpOut : List Name}

end CompressDir

def oneFileFs : Fs where
  root := [(⟨['a'], by decide⟩, .file [1, 2] .created)]
  cwd := []
  now := 0
  distinct := rfl
  cwd_dir := rfl

end LithiumTools
