import Neoseq.Wire.Frame

/-! Portable copies of a graph: a ZIP archive of a manifest and a snapshot. The ZIP and JSON
libraries are parameters. The writer checks the metadata, the reader the manifest, and the
two checks differ in the schema of the document. -/

namespace Neoseq.Archive
open Content Domain Wire

def format : String := "neoseq.graph-archive"
def archiveVersion : Nat := 1
def payloadEncoding : String := "loro-snapshot/v1"
def manifestPath : String := "manifest.json"
def snapshotPath : String := "graph.loro"
def maxArchiveBytes : Nat := 256 * 1024 * 1024
def maxManifestBytes : Nat := 64 * 1024
def maxSnapshotBytes : Nat := 256 * 1024 * 1024

structure ArchiveSource where
  graphId : GraphId
  documentSchema : UInt32
  deriving DecidableEq

structure ArchivePayload where
  path : String
  size : Nat
  sha256 : String
  deriving DecidableEq

structure ArchiveManifest where
  format : String
  archiveVersion : Nat
  archiveId : String
  source : ArchiveSource
  payloadEncoding : String
  exportedAt : String
  suggestedName : Option String
  payload : ArchivePayload
  deriving DecidableEq

structure ArchiveMetadata where
  archiveId : String
  sourceGraphId : GraphId
  documentSchema : UInt32
  exportedAt : String
  suggestedName : Option String
  deriving DecidableEq

structure DecodedArchive where
  manifest : ArchiveManifest
  snapshot : List UInt8
  deriving DecidableEq

inductive ArchiveError where
  | archiveTooLarge
  | invalidEntries
  | unsupportedCompression
  | manifestTooLarge
  | snapshotTooLarge
  | unsupportedVersion
  | invalidManifest (message : String)
  | checksumMismatch
  | zip (message : String)
  | io (message : String)
  deriving Repr, DecidableEq

/-! ## The libraries -/

/-- An entry as the ZIP library shows it. -/
structure ZipFile where
  stored : Bool
  isDir : Bool
  name : Except ArchiveError String
  size : Nat
  content : Except ArchiveError (List UInt8)

/-- Writing stored entries, and opening an archive and each entry of it. -/
structure Zip where
  write : List (String × List UInt8) → Except ArchiveError (List UInt8)
  read : List UInt8 → Except ArchiveError (List (Except ArchiveError ZipFile))

def storedEntry (name : String) (content : List UInt8) : ZipFile :=
  ⟨true, false, .ok name, content.length, .ok content⟩

/-- Stored entries are read back as written. -/
def Zip.ReadsBack (zip : Zip) : Prop :=
  ∀ (name name' : String) (content content' bytes : List UInt8), name ≠ name' →
    zip.write [(name, content), (name', content')] = .ok bytes →
    zip.read bytes = .ok [.ok (storedEntry name content), .ok (storedEntry name' content')]

/-- The size of a stored entry is that of its content. -/
def Zip.Sized (zip : Zip) : Prop :=
  ∀ bytes entries, zip.read bytes = .ok entries → ∀ file, .ok file ∈ entries →
    file.stored = true → ∀ content, file.content = .ok content → content.length = file.size

/-- Manifests as JSON; a failure is its text. -/
structure ManifestJson where
  toVecPretty : ArchiveManifest → Except String (List UInt8)
  fromSlice : List UInt8 → Except String ArchiveManifest

def ManifestJson.ReadsBack (json : ManifestJson) : Prop :=
  ∀ manifest bytes, json.toVecPretty manifest = .ok bytes → json.fromSlice bytes = .ok manifest

/-! ## Writing and reading -/

def validateMetadata (metadata : ArchiveMetadata) : Except ArchiveError Unit :=
  if metadata.archiveId.isEmpty ∨ 160 < metadata.archiveId.utf8ByteSize ∨
      metadata.archiveId.toList.any isControl = true ∨
      metadata.exportedAt.isEmpty ∨ 64 < metadata.exportedAt.utf8ByteSize ∨
      metadata.exportedAt.toList.any isControl = true ∨
      metadata.suggestedName.any (fun name =>
        decide (256 < name.utf8ByteSize) || name.toList.any isControl) = true then
    .error (.invalidManifest "archive metadata is outside its limits")
  else .ok ()

namespace ArchiveManifest

def metadata (manifest : ArchiveManifest) : ArchiveMetadata where
  archiveId := manifest.archiveId
  sourceGraphId := manifest.source.graphId
  documentSchema := manifest.source.documentSchema
  exportedAt := manifest.exportedAt
  suggestedName := manifest.suggestedName

end ArchiveManifest

def validateManifest (manifest : ArchiveManifest) : Except ArchiveError Unit :=
  if manifest.format ≠ format ∨ manifest.archiveVersion ≠ archiveVersion ∨
      manifest.payloadEncoding ≠ payloadEncoding then .error .unsupportedVersion
  else if manifest.payload.path ≠ snapshotPath then .error .invalidEntries
  else if manifest.source.documentSchema = 0 then
    .error (.invalidManifest "document schema must be positive")
  else validateMetadata manifest.metadata

section
variable (sha : Sha256) (json : ManifestJson) (zip : Zip)

def digest (bytes : List UInt8) : String := hexEncode (sha.digest bytes)

def manifestOf (snapshot : List UInt8) (metadata : ArchiveMetadata) : ArchiveManifest where
  format := format
  archiveVersion := archiveVersion
  archiveId := metadata.archiveId
  source := ⟨metadata.sourceGraphId, metadata.documentSchema⟩
  payloadEncoding := payloadEncoding
  exportedAt := metadata.exportedAt
  suggestedName := metadata.suggestedName
  payload := ⟨snapshotPath, snapshot.length, digest sha snapshot⟩

def encode (snapshot : List UInt8) (metadata : ArchiveMetadata) :
    Except ArchiveError (List UInt8) :=
  if maxSnapshotBytes < snapshot.length then .error .snapshotTooLarge
  else do
    validateMetadata metadata
    match json.toVecPretty (manifestOf sha snapshot metadata) with
    | .error message => .error (.invalidManifest message)
    | .ok manifestBytes =>
      if maxManifestBytes < manifestBytes.length then .error .manifestTooLarge
      else do
        let bytes ← zip.write [(manifestPath, manifestBytes), (snapshotPath, snapshot)]
        if maxArchiveBytes < bytes.length then .error .archiveTooLarge
        else return bytes

/-- The loop over the entries, with what has been read so far. -/
def readEntries : List (Except ArchiveError ZipFile) → (manifest snapshot : Option (List UInt8)) →
    Except ArchiveError (Option (List UInt8) × Option (List UInt8))
  | [], manifest, snapshot => .ok (manifest, snapshot)
  | entry :: rest, manifest, snapshot => do
    let file ← entry
    if file.stored = false ∨ file.isDir = true then .error .unsupportedCompression
    else
      let name ← file.name
      if name = manifestPath then
        if manifest.isSome ∨ maxManifestBytes < file.size then
          .error (if maxManifestBytes < file.size then .manifestTooLarge else .invalidEntries)
        else
          let value ← file.content
          readEntries rest (some value) snapshot
      else if name = snapshotPath then
        if snapshot.isSome ∨ maxSnapshotBytes < file.size then
          .error (if maxSnapshotBytes < file.size then .snapshotTooLarge else .invalidEntries)
        else
          let value ← file.content
          readEntries rest manifest (some value)
      else .error .invalidEntries

def decode (bytes : List UInt8) : Except ArchiveError DecodedArchive :=
  if maxArchiveBytes < bytes.length then .error .archiveTooLarge
  else do
    let archive ← zip.read bytes
    if archive.length ≠ 2 then .error .invalidEntries
    else
      let (manifestBytes, snapshot) ← readEntries archive none none
      match manifestBytes with
      | none => .error .invalidEntries
      | some manifestBytes =>
        match json.fromSlice manifestBytes with
        | .error message => .error (.invalidManifest message)
        | .ok manifest => do
          validateManifest manifest
          match snapshot with
          | none => .error .invalidEntries
          | some snapshot =>
            if manifest.payload.size ≠ snapshot.length ∨
                manifest.payload.sha256 ≠ digest sha snapshot then .error .checksumMismatch
            else return ⟨manifest, snapshot⟩

end

/-! ## What is read -/

/-- The entry is stored under a name, within a size, and has this content. -/
structure Reads (file : ZipFile) (name : String) (limit : Nat) (content : List UInt8) : Prop where
  stored : file.stored = true
  notDir : file.isDir = false
  name : file.name = .ok name
  size : file.size ≤ limit
  content : file.content = .ok content

theorem paths_ne : manifestPath ≠ snapshotPath := by decide

/-- One step of the loop takes a manifest that is still missing. -/
theorem readEntries_manifest {file : ZipFile} {rest : List (Except ArchiveError ZipFile)}
    {snapshot : Option (List UInt8)} {content : List UInt8}
    (h : Reads file manifestPath maxManifestBytes content) :
    readEntries (.ok file :: rest) none snapshot = readEntries rest (some content) snapshot := by
  have hkind : ¬(file.stored = false ∨ file.isDir = true) := by simp [h.stored, h.notDir]
  have hsize : ¬((none : Option (List UInt8)).isSome = true ∨ maxManifestBytes < file.size) := by
    simp [Nat.not_lt.mpr h.size]
  simp only [readEntries, bind, Except.bind]
  rw [if_neg hkind, h.name]
  dsimp only
  rw [if_pos rfl, if_neg hsize, h.content]

theorem readEntries_snapshot {file : ZipFile} {rest : List (Except ArchiveError ZipFile)}
    {manifest : Option (List UInt8)} {content : List UInt8}
    (h : Reads file snapshotPath maxSnapshotBytes content) :
    readEntries (.ok file :: rest) manifest none = readEntries rest manifest (some content) := by
  have hkind : ¬(file.stored = false ∨ file.isDir = true) := by simp [h.stored, h.notDir]
  have hsize : ¬((none : Option (List UInt8)).isSome = true ∨ maxSnapshotBytes < file.size) := by
    simp [Nat.not_lt.mpr h.size]
  simp only [readEntries, bind, Except.bind]
  rw [if_neg hkind, h.name]
  dsimp only
  rw [if_neg paths_ne.symm, if_pos rfl, if_neg hsize, h.content]

/-- A step that does not fail takes one of the two files, which was missing. -/
theorem readEntries_cons {entry : Except ArchiveError ZipFile}
    {rest : List (Except ArchiveError ZipFile)} {manifest snapshot : Option (List UInt8)}
    {result : Option (List UInt8) × Option (List UInt8)}
    (h : readEntries (entry :: rest) manifest snapshot = .ok result) :
    ∃ file content, entry = .ok file ∧
      (Reads file manifestPath maxManifestBytes content ∧ manifest = none ∧
          readEntries rest (some content) snapshot = .ok result ∨
        Reads file snapshotPath maxSnapshotBytes content ∧ snapshot = none ∧
          readEntries rest manifest (some content) = .ok result) := by
  rw [readEntries] at h
  obtain ⟨file, hentry, htail⟩ := bind_eq_ok.mp h
  clear h
  by_cases hkind : file.stored = false ∨ file.isDir = true
  · rw [if_pos hkind] at htail
    cases htail
  rw [if_neg hkind] at htail
  rw [not_or] at hkind
  have hstored : file.stored = true := by simpa using hkind.1
  have hdir : file.isDir = false := by simpa using hkind.2
  obtain ⟨name, hname, h⟩ := bind_eq_ok.mp htail
  by_cases hmanifest : name = manifestPath
  · rw [if_pos hmanifest] at h
    subst hmanifest
    split_ifs at h with hbad
    obtain ⟨content, hcontent, h⟩ := bind_eq_ok.mp h
    rw [not_or, Nat.not_lt] at hbad
    refine ⟨file, content, hentry, .inl ⟨⟨hstored, hdir, hname, hbad.2, hcontent⟩, ?_, h⟩⟩
    simpa using hbad.1
  · rw [if_neg hmanifest] at h
    split_ifs at h with hsnapshot hbad
    subst hsnapshot
    obtain ⟨content, hcontent, h⟩ := bind_eq_ok.mp h
    rw [not_or, Nat.not_lt] at hbad
    refine ⟨file, content, hentry, .inr ⟨⟨hstored, hdir, hname, hbad.2, hcontent⟩, ?_, h⟩⟩
    simpa using hbad.1

/-- Reading ends with both files only where these are the two entries, in some order. -/
theorem readEntries_pair {archive : List (Except ArchiveError ZipFile)} (hlen : archive.length = 2)
    {manifest snapshot : List UInt8}
    (h : readEntries archive none none = .ok (some manifest, some snapshot)) :
    ∃ m s : ZipFile, (archive = [.ok m, .ok s] ∨ archive = [.ok s, .ok m]) ∧
      Reads m manifestPath maxManifestBytes manifest ∧
      Reads s snapshotPath maxSnapshotBytes snapshot := by
  obtain ⟨first, second, rfl⟩ := List.length_eq_two.mp hlen
  obtain ⟨a, contentA, rfl, ⟨ha, -, h⟩ | ⟨ha, -, h⟩⟩ := readEntries_cons h
  · obtain ⟨b, contentB, rfl, ⟨_, hnone, _⟩ | ⟨hb, -, h⟩⟩ := readEntries_cons h
    · cases hnone
    · obtain ⟨rfl, rfl⟩ := by simpa [readEntries] using h
      exact ⟨a, b, .inl rfl, ha, hb⟩
  · obtain ⟨b, contentB, rfl, ⟨hb, -, h⟩ | ⟨_, hnone, _⟩⟩ := readEntries_cons h
    · obtain ⟨rfl, rfl⟩ := by simpa [readEntries] using h
      exact ⟨b, a, .inr rfl, hb, ha⟩
    · cases hnone

section
variable {sha : Sha256} {json : ManifestJson} {zip : Zip}

theorem encode_eq_ok {snapshot bytes : List UInt8} {metadata : ArchiveMetadata} :
    encode sha json zip snapshot metadata = .ok bytes ↔
      ∃ manifestBytes, snapshot.length ≤ maxSnapshotBytes ∧ validateMetadata metadata = .ok () ∧
        json.toVecPretty (manifestOf sha snapshot metadata) = .ok manifestBytes ∧
        manifestBytes.length ≤ maxManifestBytes ∧
        zip.write [(manifestPath, manifestBytes), (snapshotPath, snapshot)] = .ok bytes ∧
        bytes.length ≤ maxArchiveBytes := by
  unfold encode
  constructor
  · intro h
    split_ifs at h with hsnapshot
    obtain ⟨⟨⟩, hvalid, h⟩ := bind_eq_ok.mp h
    split at h
    · cases h
    · next manifestBytes hjson =>
      split_ifs at h with hmanifest
      obtain ⟨written, hwrite, h⟩ := bind_eq_ok.mp h
      split_ifs at h with harchive
      obtain rfl := Except.ok.inj h
      exact ⟨manifestBytes, Nat.not_lt.mp hsnapshot, hvalid, hjson, Nat.not_lt.mp hmanifest, hwrite,
        Nat.not_lt.mp harchive⟩
  · intro ⟨manifestBytes, hsnapshot, hvalid, hjson, hmanifest, hwrite, harchive⟩
    rw [if_neg (Nat.not_lt.mpr hsnapshot)]
    refine bind_eq_ok.mpr ⟨(), hvalid, ?_⟩
    rw [hjson]
    dsimp only
    rw [if_neg (Nat.not_lt.mpr hmanifest)]
    refine bind_eq_ok.mpr ⟨bytes, hwrite, ?_⟩
    rw [if_neg (Nat.not_lt.mpr harchive)]
    rfl

/-- What an archive that is accepted contains: the two entries and no other. -/
structure Contains (sha : Sha256) (json : ManifestJson) (zip : Zip) (bytes : List UInt8)
    (decoded : DecodedArchive) (m s : ZipFile) (manifestBytes : List UInt8) : Prop where
  entries : zip.read bytes = .ok [.ok m, .ok s] ∨ zip.read bytes = .ok [.ok s, .ok m]
  manifest : Reads m manifestPath maxManifestBytes manifestBytes
  snapshot : Reads s snapshotPath maxSnapshotBytes decoded.snapshot
  parsed : json.fromSlice manifestBytes = .ok decoded.manifest
  valid : validateManifest decoded.manifest = .ok ()
  size : decoded.manifest.payload.size = decoded.snapshot.length
  checksum : decoded.manifest.payload.sha256 = digest sha decoded.snapshot
  archive : bytes.length ≤ maxArchiveBytes

theorem contains_of_decode {bytes : List UInt8} {decoded : DecodedArchive}
    (h : decode sha json zip bytes = .ok decoded) :
    ∃ m s manifestBytes, Contains sha json zip bytes decoded m s manifestBytes := by
  unfold decode at h
  split_ifs at h with harchive
  obtain ⟨archive, hread, h⟩ := bind_eq_ok.mp h
  split_ifs at h with hlen
  rw [not_not] at hlen
  obtain ⟨⟨manifestBytes, snapshot⟩, hentries, h⟩ := bind_eq_ok.mp h
  dsimp only at h
  split at h
  · cases h
  · next manifestBytes =>
    split at h
    · cases h
    · next manifest hparsed =>
      obtain ⟨⟨⟩, hvalid, h⟩ := bind_eq_ok.mp h
      split at h
      · cases h
      · next snapshot =>
        split_ifs at h with hsum
        rw [not_or, not_not, not_not] at hsum
        obtain rfl := Except.ok.inj h
        obtain ⟨m, s, horder, hm, hs⟩ := readEntries_pair hlen hentries
        refine ⟨m, s, manifestBytes, ?_, hm, hs, hparsed, hvalid, hsum.1, hsum.2,
          Nat.not_lt.mp harchive⟩
        rw [hread]
        exact horder.imp (congrArg Except.ok) (congrArg Except.ok)

theorem decode_of_entries {bytes manifestBytes snapshot : List UInt8} {manifest : ArchiveManifest}
    {m s : ZipFile} (hread : zip.read bytes = .ok [.ok m, .ok s])
    (hm : Reads m manifestPath maxManifestBytes manifestBytes)
    (hs : Reads s snapshotPath maxSnapshotBytes snapshot)
    (hparsed : json.fromSlice manifestBytes = .ok manifest)
    (hsize : manifest.payload.size = snapshot.length)
    (hsum : manifest.payload.sha256 = digest sha snapshot)
    (harchive : bytes.length ≤ maxArchiveBytes) :
    decode sha json zip bytes = (do
      validateManifest manifest
      return ⟨manifest, snapshot⟩) := by
  have hentries : readEntries [.ok m, .ok s] none none = .ok (some manifestBytes, some snapshot) := by
    rw [readEntries_manifest hm, readEntries_snapshot hs, readEntries]
  have hgood : ¬(manifest.payload.size ≠ snapshot.length ∨
      manifest.payload.sha256 ≠ digest sha snapshot) := by simp [hsize, hsum]
  unfold decode
  rw [if_neg (Nat.not_lt.mpr harchive), hread]
  simp only [bind, Except.bind, hentries, hparsed, if_neg hgood]
  rfl

/-- The metadata that the writer lets through pass the reader but for the schema. -/
theorem validateManifest_manifestOf {snapshot : List UInt8} {metadata : ArchiveMetadata}
    (hvalid : validateMetadata metadata = .ok ()) :
    validateManifest (manifestOf sha snapshot metadata) =
      if metadata.documentSchema = 0 then
        .error (.invalidManifest "document schema must be positive")
      else .ok () := by
  have hversion : ¬((manifestOf sha snapshot metadata).format ≠ format ∨
      (manifestOf sha snapshot metadata).archiveVersion ≠ archiveVersion ∨
      (manifestOf sha snapshot metadata).payloadEncoding ≠ payloadEncoding) := by
    simp [manifestOf]
  unfold validateManifest
  have hpath : (manifestOf sha snapshot metadata).payload.path = snapshotPath := rfl
  rw [if_neg hversion, if_neg (not_not.mpr hpath)]
  show (if metadata.documentSchema = 0 then _ else validateMetadata metadata) = _
  rw [hvalid]

/-- An archive that is written is read back exactly where the schema of the document is
positive, and an archive that is read has the two entries, within their limits and as the
manifest says. -/
theorem decode_encode_iff (sha : Sha256) (json : ManifestJson) (zip : Zip)
    (hjson : json.ReadsBack) (hzip : zip.ReadsBack) (hsized : zip.Sized) :
    (∀ snapshot metadata bytes, encode sha json zip snapshot metadata = .ok bytes →
      ((∃ decoded, decode sha json zip bytes = .ok decoded ∧ decoded.snapshot = snapshot ∧
          decoded.manifest.metadata = metadata) ↔ metadata.documentSchema ≠ 0)) ∧
    ∀ bytes decoded, decode sha json zip bytes = .ok decoded →
      ∃ m s manifestBytes, Contains sha json zip bytes decoded m s manifestBytes ∧
        manifestBytes.length ≤ maxManifestBytes ∧ decoded.snapshot.length ≤ maxSnapshotBytes := by
  constructor
  · intro snapshot metadata bytes h
    obtain ⟨manifestBytes, hsnapshot, hvalid, hwritten, hmanifest, hwrite, harchive⟩ :=
      encode_eq_ok.mp h
    have hdecode := decode_of_entries (hzip _ _ _ _ _ paths_ne hwrite)
      (⟨rfl, rfl, rfl, hmanifest, rfl⟩ : Reads (storedEntry manifestPath manifestBytes) _ _ _)
      (⟨rfl, rfl, rfl, hsnapshot, rfl⟩ : Reads (storedEntry snapshotPath snapshot) _ _ _)
      (hjson _ _ hwritten) rfl rfl harchive
    rw [hdecode, validateManifest_manifestOf hvalid]
    by_cases hschema : metadata.documentSchema = 0
    · rw [if_pos hschema]
      refine iff_of_false ?_ (not_not.mpr hschema)
      intro ⟨decoded, hdecoded, _⟩
      cases hdecoded
    · rw [if_neg hschema]
      exact iff_of_true ⟨_, rfl, rfl, rfl⟩ hschema
  · intro bytes decoded h
    obtain ⟨m, s, manifestBytes, hcontains⟩ := contains_of_decode h
    have hsizes (file : ZipFile) (hfile : file = m ∨ file = s) {content : List UInt8}
        (hstored : file.stored = true) (hcontent : file.content = .ok content) :
        content.length = file.size := by
      rcases hcontains.entries with hread | hread
      · exact hsized _ _ hread file (by rcases hfile with rfl | rfl <;> simp) hstored _ hcontent
      · exact hsized _ _ hread file (by rcases hfile with rfl | rfl <;> simp) hstored _ hcontent
    refine ⟨m, s, manifestBytes, hcontains, ?_, ?_⟩
    · rw [hsizes m (.inl rfl) hcontains.manifest.stored hcontains.manifest.content]
      exact hcontains.manifest.size
    · rw [hsizes s (.inr rfl) hcontains.snapshot.stored hcontains.snapshot.content]
      exact hcontains.snapshot.size

end

/-- Metadata of a document of some schema. -/
def sampleMetadata (schema : UInt32) : ArchiveMetadata where
  archiveId := "archive-1"
  sourceGraphId := ⟨"source-graph", by decide⟩
  documentSchema := schema
  exportedAt := "2026-08-21T12:00:00Z"
  suggestedName := some "Research"

/-- Two manifests, each written as the number of its schema. -/
def sampleJson : ManifestJson where
  toVecPretty manifest :=
    if manifest = manifestOf sampleSha [1, 2, 3] (sampleMetadata 0) then .ok [0]
    else if manifest = manifestOf sampleSha [1, 2, 3] (sampleMetadata 1) then .ok [1]
    else .error "not written"
  fromSlice
    | [0] => .ok (manifestOf sampleSha [1, 2, 3] (sampleMetadata 0))
    | [1] => .ok (manifestOf sampleSha [1, 2, 3] (sampleMetadata 1))
    | _ => .error "expected value at line 1 column 1"

/-- Archives of a manifest of one byte and of one snapshot. -/
def sampleZip : Zip where
  write
    | [(name, [byte]), (name', content)] =>
      if name = manifestPath ∧ name' = snapshotPath ∧ content = [1, 2, 3] then .ok [byte]
      else .error (.zip "not written")
    | _ => .error (.zip "not written")
  read
    | [byte] => .ok [.ok (storedEntry manifestPath [byte]), .ok (storedEntry snapshotPath [1, 2, 3])]
    | _ => .error (.zip "Could not find EOCD")

theorem sampleJson_readsBack : sampleJson.ReadsBack := by
  intro manifest bytes h
  simp only [sampleJson] at h
  split_ifs at h with hzero hone
  · obtain rfl := Except.ok.inj h
    rw [hzero]
    rfl
  · obtain rfl := Except.ok.inj h
    rw [hone]
    rfl

theorem sampleZip_readsBack : sampleZip.ReadsBack := by
  intro name name' content content' bytes _ h
  simp only [sampleZip] at h
  split at h
  · next heq =>
    split_ifs at h with hnames
    obtain rfl := Except.ok.inj h
    simp only [List.cons.injEq, Prod.mk.injEq, and_true] at heq
    obtain ⟨⟨rfl, rfl⟩, rfl, rfl⟩ := heq
    obtain ⟨rfl, rfl, rfl⟩ := hnames
    rfl
  · cases h

theorem sampleZip_sized : sampleZip.Sized := by
  intro bytes entries h file hfile _ content hcontent
  simp only [sampleZip] at h
  split at h
  · next byte =>
    obtain rfl := Except.ok.inj h
    simp only [List.mem_cons, Except.ok.injEq, List.not_mem_nil, or_false] at hfile
    rcases hfile with rfl | rfl
    · rw [← Except.ok.inj hcontent]
      rfl
    · rw [← Except.ok.inj hcontent]
      rfl
  · cases h

theorem decode_encode_sample :
    (∃ decoded, decode sampleSha sampleJson sampleZip [1] = .ok decoded ∧
      decoded.snapshot = [1, 2, 3] ∧ decoded.manifest.metadata = sampleMetadata 1) ↔
      (sampleMetadata 1).documentSchema ≠ 0 :=
  (decode_encode_iff sampleSha sampleJson sampleZip sampleJson_readsBack sampleZip_readsBack
    sampleZip_sized).1 [1, 2, 3] (sampleMetadata 1) [1] (by decide +kernel)

/-- A document of the schema zero is exported and not imported again. -/
theorem encode_schema_zero :
    encode sampleSha sampleJson sampleZip [1, 2, 3] (sampleMetadata 0) = .ok [0] ∧
      decode sampleSha sampleJson sampleZip [0] =
        .error (.invalidManifest "document schema must be positive") := by
  decide +kernel

end Neoseq.Archive
