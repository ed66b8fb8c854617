import LithiumTools.Proof.Extract

/-!
# Unpacking an archive a second time, and a damaged one

A file already there is unlinked and made again; an error of the reading ends the unpacking
where it is.
-/

namespace LithiumTools

open Fs

theorem Fs.SameTree.trans {fs₁ fs₂ fs₃ : Fs} (h₁ : fs₁.SameTree fs₂) (h₂ : fs₂.SameTree fs₃) :
    fs₁.SameTree fs₃ :=
  ⟨h₁.cwd_eq.trans h₂.cwd_eq, fun q => (h₁.shapeAt_eq q).trans (h₂.shapeAt_eq q)⟩

section Again

variable {S : Fs} {rx : List Name}

theorem removeFile_of_file {p : List Component} {rp : List Name} (hloc : S.locate false p = .ok rp)
    (hk : S.kindAt rp = some .file) : ∃ S', S.removeFile p = .ok S' := by
  simp only [removeFile, bind, Except.bind, hloc]
  split
  · simp_all
  · split
    · simp_all
    · exact ⟨_, rfl⟩

theorem unpackIn_file_again {q : List Name} {e : TarEntry} (hrx : S.kindAt rx = some .dir)
    (hpath : e.path = joinNames q) (hkind : e.kind = .regular)
    (hfile : S.shapeAt (rx ++ q) = some (.file e.data (Tar.unpackedMeta e))) :
    ∃ S', Tar.unpackIn (realComponents rx) e S = .ok true S' ∧ S'.SameTree S := by
  have hkq : S.kindAt (rx ++ q) = some .file := by simp [kindAt_eq_map_shapeAt, hfile, Node.kind]
  have hq : q ≠ [] := by
    rintro rfl
    simp [hrx] at hkq
  have hq' : q.dropLast ++ [q.getLast hq] = q := List.dropLast_append_getLast hq
  have hkq' : S.kindAt (rx ++ q.dropLast ++ [q.getLast hq]) = some .file := by
    rwa [List.append_assoc, hq']
  -- the directories on the way are there: nothing to make, and the parent lies in `rx`
  have hp : S.kindAt (rx ++ q.dropLast) = some .dir :=
    S.kindAt_above (q := rx ++ q.dropLast ++ [q.getLast hq]) (by rw [hkq']; simp)
      (List.prefix_append _ _) (by simp)
  obtain ⟨nd, hls⟩ := lstat_realComponents_of_kind hp fun _ => nofun
  have hens : Tar.ensureDirCreated (realComponents rx) (realComponents (rx ++ q.dropLast)) S =
      .ok () S := by
    simp only [Tar.ensureDirCreated, missingAncestors_of_exists (by simp [realComponents]) hls,
      List.reverse_nil, Tar.createAncestors]
    rfl
  have hvalid : Tar.validateInsideDst (realComponents rx) (realComponents (rx ++ q.dropLast)) S =
      .ok rx := by
    simp [Tar.validateInsideDst, canonicalize_realComponents hrx, canonicalize_realComponents hp,
      bind, Except.bind, pure, Except.pure]
  -- the file: there, unlinked, then made again
  obtain ⟨nf, hlsq⟩ := lstat_realComponents_of_kind hkq' fun _ => nofun
  have hloc := (lstat_ok hlsq).1
  have hexists : S.createNew (realComponents (rx ++ q.dropLast ++ [q.getLast hq]))
      (.file e.data (Tar.unpackedMeta e)) rfl = .error .alreadyExists :=
    createNew_error hloc (by rw [hkq']; simp)
  obtain ⟨S₁, hrm⟩ := removeFile_of_file hloc hkq'
  obtain ⟨rp, hloc₁, -, -, hu₁⟩ := removeFile_ok hrm
  obtain rfl := Except.ok.inj (hloc.symm.trans hloc₁)
  have hn₁ : S₁.kindAt (rx ++ q.dropLast ++ [q.getLast hq]) = none := by
    simp only [kindAt, hu₁.get_eq, Option.map_none']
  have hp₁ : S₁.kindAt (rx ++ q.dropLast) = some .dir := by
    rwa [hu₁.kindAt_eq (q := rx ++ q.dropLast) fun h =>
      absurd h.length_le (by simp only [List.length_append, List.length_singleton]; omega)]
  obtain ⟨S₂, hnew⟩ : ∃ S₂, S₁.createNew (realComponents (rx ++ q.dropLast ++ [q.getLast hq]))
      (.file e.data (Tar.unpackedMeta e)) rfl = .ok (S₂, rx ++ q.dropLast ++ [q.getLast hq]) :=
    createNew_of_free (locate_realComponents_snoc hp₁ hn₁) hn₁
  obtain ⟨-, -, hu₂⟩ := createNew_ok hnew
  have hu := hu₁.trans hu₂
  rw [List.append_assoc, hq'] at hexists hrm hnew hu
  refine ⟨S₂, ?_, hu.cwd_eq, fun r => ?_⟩
  · -- the run: the entry's path is the names, with no `..`
    have hdst : ∀ ns : List Name, realComponents rx ++ ns.map .normal = realComponents (rx ++ ns) :=
      fun ns => by simp [realComponents]
    have hslash : ¬ ((!e.ustar) = true ∧ (joinNames q).getLast? = some '/') :=
      fun h => getLast?_joinNames_ne h.2
    simp only [Tar.unpackIn, hpath, components_joinNames, normalNames_map_normal, hq, if_false,
      List.mem_map, reduceCtorEq, and_false, exists_false, hdst, bind, EStateM.bind, hens,
      Fs.query, hvalid, Tar.unpackEntry, hkind, Bool.and_eq_true, decide_eq_true_eq]
    rw [if_neg hslash]
    simp only [Tar.unpackFile, hexists, hrm, hnew]
    rfl
  · -- the tree: the same file at `rx ++ q`, nothing below it, the rest as it was
    by_cases hqr : rx ++ q <+: r
    · obtain ⟨t, rfl⟩ := hqr
      rcases eq_or_ne t [] with rfl | ht
      · rw [List.append_nil, hfile]
        simp [shapeAt, hu.get_eq, Node.shape]
      · rw [shapeAt_eq_none.2 (hu.kindAt_below (by simp [Node.entries]) ht),
          shapeAt_eq_none.2 (S.kindAt_below_of_not_dir (by simp [hkq]) ht)]
    · exact hu.shapeAt_eq r hqr

theorem unpackFiles_again {qs : List (List Name)} {es : List TarEntry}
    (hes : List.Forall₂ (fun q e => e.path = joinNames q ∧ e.kind = .regular ∧
      S.shapeAt (rx ++ q) = some (.file e.data (Tar.unpackedMeta e))) qs es)
    (hrx : S.kindAt rx = some .dir) :
    ∀ {S₁ : Fs}, S₁.SameTree S →
      ∃ S₂, Tar.unpackFiles (realComponents rx) es S₁ = .ok [] S₂ ∧ S₂.SameTree S := by
  induction hes with
  | nil => exact fun {S₁} h => ⟨S₁, rfl, h⟩
  | @cons q e qs es hqe _ ih =>
    intro S₁ hsame
    obtain ⟨S₂, hrun₁, hsame₂⟩ := unpackIn_file_again ((hsame.kindAt_eq rx).trans hrx) hqe.1 hqe.2.1
      ((hsame.shapeAt_eq _).trans hqe.2.2)
    obtain ⟨S₃, hrun₂, hsame₃⟩ := ih (hsame₂.trans hsame)
    refine ⟨S₃, ?_, hsame₃⟩
    simp only [Tar.unpackFiles, hqe.2.1, reduceCtorEq, if_false, bind, EStateM.bind, discard_apply,
      hrun₁, hrun₂]

end Again

section Decompress

variable (df : Deflate) (tf : TarFormat) {fs fs' : Fs}

theorem decompressFile_tar_into_dir {O T : List Char} {rpO rx : List Name} {d s : Bytes}
    {m : Metadata} {esT : List (Name × Node)} {es : List TarEntry} {err₀ err : Option Error}
    (hO : fs.stat (components O) = .ok (rpO, .file d m)) (htar : isTarName O = true)
    (hT : fs.stat (components T) = .ok (rx, .dir esT)) (hdec : gzipRead df d = (s, err₀))
    (hread : tf.read s err₀ = (es, err)) :
    decompressFile df tf O T fs = (Tar.unpackFiles (realComponents rx) es >>= fun dirs =>
      match err with
      | some e => throw e
      | none => Tar.unpackDirs (realComponents rx) (Tar.sortDirs dirs)) fs := by
  obtain ⟨hTloc, hget⟩ := get_of_stat hT
  have hcan : fs.canonicalize (components T) = .ok rx := by
    simp [canonicalize, hT, Functor.map, Except.map]
  obtain ⟨r₀, hlocf, hk⟩ := locate_false_of_true hTloc (by simp [kindAt, hget])
  obtain ⟨nd, hnd⟩ : ∃ nd, fs.get r₀ = some nd := by
    cases hg : fs.get r₀ <;> simp_all [kindAt]
  have hls : fs.lstat (components T) = .ok (r₀, nd) := by
    simp [lstat, hlocf, hnd, bind, Except.bind, pure, Except.pure]
  have hin : fs.readAt rpO = .ok (d, m) := by simp [readAt, (get_of_stat hO).2]
  rw [decompressFile_tar_run df tf (by rwa [sysPath_of_isTarName htar]) hin htar, hdec]
  simp only [bind, EStateM.bind, createDirAll_of_dir hT]
  unfold Tar.unpack
  simp only [bind, EStateM.bind, MonadState.get, getThe, MonadStateOf.get, EStateM.get]
  simp only [hls, Bool.false_eq_true, if_false, pure_bind, hcan, hread]
  cases err <;> simp only [EStateM.bind, EStateM.get, pure, EStateM.pure, hcan]

/-- **Unpacking an archive again changes nothing:** each file is unlinked and made again as it was.
-/
theorem decompressFile_again {O T : List Char} {rpO rx : List Name} {m : Metadata} {level : Nat}
    {esT : List (Name × Node)} {qs : List (List Name)} {es : List TarEntry}
    (hO : fs.stat (components O) = .ok (rpO, .file (gzipStream df level (archiveBytes tf es)) m))
    (htar : isTarName O = true) (hT : fs.stat (components T) = .ok (rx, .dir esT))
    (hes : List.Forall₂ (fun q e => e.path = joinNames q ∧ e.kind = .regular ∧
      e.linkName = none ∧ fs.get (rx ++ q) = some (.file e.data (Tar.unpackedMeta e))) qs es) :
    ∃ fs', decompressFile df tf O T fs = .ok () fs' ∧ fs'.SameTree fs := by
  have hrx : fs.kindAt rx = some .dir := by simp [kindAt, (get_of_stat hT).2]
  obtain ⟨fs', hrun, hsame⟩ := unpackFiles_again
    (hes.imp fun _ _ h => ⟨h.1, h.2.1, by simp [shapeAt, h.2.2.2, Node.shape]⟩) hrx
    (show fs.SameTree fs from ⟨rfl, fun _ => rfl⟩)
  have htf : tf.read (archiveBytes tf es) none = (es, none) := by
    simpa [archiveBytes] using
      tf.read_encode es [] none (storable_of_forall₂ (hes.imp fun _ _ h => ⟨h.1, h.2.2.1⟩))
  refine ⟨fs', ?_, hsame⟩
  rw [decompressFile_tar_into_dir df tf hO htar hT (gzipRead_gzipStream df level _) htf]
  simp only [bind, EStateM.bind, hrun, Tar.sortDirs, List.mergeSort_nil, Tar.unpackDirs]
  rfl

def entryA : TarEntry where
  path := ['a']
  kind := .regular
  linkName := none
  ustar := false
  meta := .created
  data := [1]

def againFs : Fs where
  root := [(⟨"o.tgz".toList, by decide⟩,
      .file (gzipStream Deflate.escaped 6 (archiveBytes StandIn.tarFormat [entryA])) .created),
    (⟨['t'], by decide⟩, .dir [(⟨['a'], by decide⟩, .file [1] (Tar.unpackedMeta entryA))])]
  cwd := []
  now := 0
  distinct := rfl
  cwd_dir := rfl

theorem decompressFile_again_againFs :
    againFs.stat (components "/o.tgz".toList) = .ok ([⟨"o.tgz".toList, by decide⟩],
      .file (gzipStream Deflate.escaped 6 (archiveBytes StandIn.tarFormat [entryA])) .created) ∧
    isTarName "/o.tgz".toList = true ∧
    againFs.stat (components "/t".toList) = .ok ([⟨['t'], by decide⟩],
      .dir [(⟨['a'], by decide⟩, .file [1] (Tar.unpackedMeta entryA))]) ∧
    List.Forall₂ (fun q e => e.path = joinNames q ∧ e.kind = .regular ∧ e.linkName = none ∧
      againFs.get ([⟨['t'], by decide⟩] ++ q) = some (.file e.data (Tar.unpackedMeta e)))
      [[⟨['a'], by decide⟩]] [entryA] ∧
    ∃ fs', decompressFile Deflate.escaped StandIn.tarFormat "/o.tgz".toList "/t".toList againFs =
      .ok () fs' ∧ fs'.SameTree againFs :=
  have hO : againFs.stat (components "/o.tgz".toList) = .ok ([⟨"o.tgz".toList, by decide⟩],
      .file (gzipStream Deflate.escaped 6 (archiveBytes StandIn.tarFormat [entryA])) .created) :=
    rfl
  have htar : isTarName "/o.tgz".toList = true := rfl
  have hT : againFs.stat (components "/t".toList) = .ok ([⟨['t'], by decide⟩],
      .dir [(⟨['a'], by decide⟩, .file [1] (Tar.unpackedMeta entryA))]) := rfl
  have hes : List.Forall₂ (fun q e => e.path = joinNames q ∧ e.kind = .regular ∧
      e.linkName = none ∧ againFs.get ([⟨['t'], by decide⟩] ++ q) =
        some (.file e.data (Tar.unpackedMeta e))) [[⟨['a'], by decide⟩]] [entryA] :=
    .cons ⟨rfl, rfl, rfl, rfl⟩ .nil
  ⟨hO, htar, hT, hes, decompressFile_again Deflate.escaped StandIn.tarFormat hO htar hT hes⟩

/-- **A damaged archive is unpacked up to the damage:** the files read before it stay, and the
reading's error is returned. -/
theorem decompressFile_read_error {O T : List Char} {rpO rx : List Name} {d s : Bytes}
    {m : Metadata} {err₀ : Option Error} {e : Error} {qs : List (List Name)} {es : List TarEntry}
    (hO : fs.stat (components O) = .ok (rpO, .file d m)) (htar : isTarName O = true)
    (hdec : gzipRead df d = (s, err₀)) (hread : tf.read s err₀ = (es, some e))
    (hT : fs.stat (components T) = .ok (rx, .dir []))
    (hpf : qs.Pairwise fun a b => ¬ a <+: b ∧ ¬ b <+: a) (hne : ∀ q ∈ qs, q ≠ [])
    (hes : List.Forall₂ (fun q x => x.path = joinNames q ∧ x.kind = .regular) qs es) :
    ∃ fs', decompressFile df tf O T fs = .error e fs' ∧ fs.ChangesBelow rx fs' ∧
      ∀ r, fs'.shapeAt (rx ++ r) =
        unpackedShape (qs.zip (es.map fun x => .file x.data (Tar.unpackedMeta x))) r := by
  have hrx : fs.kindAt rx = some .dir := by simp [kindAt, (get_of_stat hT).2]
  obtain ⟨fs', hrun, hlay⟩ :=
    unpackFiles_files hes hrx (unpackedShape_of_empty hT) (by simpa using hpf) hne
  have hbelow := unpackFiles_below es hrx
  rw [hrun] at hbelow
  refine ⟨fs', ?_, hbelow, by simpa using hlay⟩
  rw [decompressFile_tar_into_dir df tf hO htar hT hdec hread]
  simp only [bind, EStateM.bind, hrun]
  rfl

def entryB : TarEntry :=
  { entryA with path := ['b'], data := [2] }

def cutArchive : Bytes :=
  StandIn.encodeEntry entryA ++ (StandIn.encodeEntry entryB).take 3

def damagedFs : Fs where
  root := [(⟨"o.tgz".toList, by decide⟩, .file (gzipStream Deflate.escaped 6 cutArchive) .created),
    (⟨['t'], by decide⟩, .dir [])]
  cwd := []
  now := 0
  distinct := rfl
  cwd_dir := rfl

theorem decompressFile_read_error_damagedFs :
    damagedFs.stat (components "/o.tgz".toList) = .ok ([⟨"o.tgz".toList, by decide⟩],
      .file (gzipStream Deflate.escaped 6 cutArchive) .created) ∧
    isTarName "/o.tgz".toList = true ∧
    gzipRead Deflate.escaped (gzipStream Deflate.escaped 6 cutArchive) = (cutArchive, none) ∧
    StandIn.tarFormat.read cutArchive none = ([entryA], some .unexpectedEof) ∧
    damagedFs.stat (components "/t".toList) = .ok ([⟨['t'], by decide⟩], .dir []) ∧
    ∃ fs', decompressFile Deflate.escaped StandIn.tarFormat "/o.tgz".toList "/t".toList damagedFs =
        .error .unexpectedEof fs' ∧ damagedFs.ChangesBelow [⟨['t'], by decide⟩] fs' ∧
      ∀ r, fs'.shapeAt ([⟨['t'], by decide⟩] ++ r) =
        unpackedShape ([[⟨['a'], by decide⟩]].zip
          ([entryA].map fun x => .file x.data (Tar.unpackedMeta x))) r :=
  have hO : damagedFs.stat (components "/o.tgz".toList) = .ok ([⟨"o.tgz".toList, by decide⟩],
      .file (gzipStream Deflate.escaped 6 cutArchive) .created) := rfl
  have htar : isTarName "/o.tgz".toList = true := rfl
  have hdec := gzipRead_gzipStream Deflate.escaped 6 cutArchive
  have hread : StandIn.tarFormat.read cutArchive none = ([entryA], some .unexpectedEof) := by
    have hp := StandIn.parseEntry_encodeFields entryA ((1 :: StandIn.encodeFields entryB).take 3)
    simp only [StandIn.tarFormat, cutArchive, StandIn.encodeEntry, List.cons_append]
    rw [StandIn.readEntries, if_neg (by decide), hp]
    dsimp only
    rw [show (1 :: StandIn.encodeFields entryB).take 3 = [1, 1, 0] from rfl, List.length_cons,
      StandIn.readEntries.eq_3, if_neg (by decide)]
    rfl
  have hT : damagedFs.stat (components "/t".toList) = .ok ([⟨['t'], by decide⟩], .dir []) := rfl
  ⟨hO, htar, hdec, hread, hT, decompressFile_read_error Deflate.escaped StandIn.tarFormat hO htar
    hdec hread hT (List.pairwise_singleton _ _) (by simp) (.cons ⟨rfl, rfl⟩ .nil)⟩

end Decompress

end LithiumTools
