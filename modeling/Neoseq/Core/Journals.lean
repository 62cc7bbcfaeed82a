import Neoseq.Core.Outlines
import Neoseq.Core.Frames

/-! Journals, and pages that are deleted and restored. A journal is found by its date, deleted
or not, and where there is one nothing is created; a restored page is checked to have a title,
which a new journal has not. -/

namespace Neoseq.Core
open Domain Document Collections Content

variable {host : Host} {source : IdSource} {now now' : Timestamp} {d d₂ : GraphDoc}
  {id : PageId} {record : Record} {date : LocalDate}

/-! ## What is read -/

theorem mem_decodeEntries (host : Host) {entries : List (PropertyKey × StoredField)} {f : PropertyField} :
    f ∈ decodeEntries host entries ↔ ∃ k s, (k, s) ∈ entries ∧ decodeField host k s = some f := by
  simp only [decodeEntries, List.mem_filterMap, Prod.exists]

/-- A field of a decoded bag is the decoded field. -/
theorem get_decodeBag (host : Host) (bag : Bag) (key : PropertyKey) :
    (decodeBag host bag).get key = (bag.get key).bind (decodeField host key) := by
  have hmem : ∀ f, f ∈ (decodeBag host bag).fields → f.key = key →
      ∃ s, bag.get key = some s ∧ decodeField host key s = some f := by
    intro f hf hk
    obtain ⟨k, s, he, hd⟩ := (mem_decodeEntries host).mp hf
    obtain rfl : k = key := (key_decodeField host hd).symm.trans hk
    exact ⟨s, BTreeMap.mem_entries.mp he, hd⟩
  unfold PropertyBag.get
  refine Option.ext fun f => ?_
  rw [Option.bind_eq_some_iff]
  constructor
  · intro h
    exact hmem f (List.mem_of_find?_eq_some h) (by simpa using List.find?_some h)
  · intro ⟨s, hs, hd⟩
    have hf : f ∈ (decodeBag host bag).fields :=
      (mem_decodeEntries host).mpr ⟨key, s, BTreeMap.mem_entries.mpr hs, hd⟩
    have hkey := key_decodeField host hd
    obtain ⟨g, hg⟩ : ∃ g, (decodeBag host bag).fields.find? (fun f => f.key = key) = some g :=
      Option.isSome_iff_exists.mp (List.find?_isSome.mpr ⟨f, hf, by simpa using hkey⟩)
    obtain ⟨s', hs', hd'⟩ :=
      hmem g (List.mem_of_find?_eq_some hg) (by simpa using List.find?_some hg)
    rw [hs] at hs'
    obtain rfl := Option.some.inj hs'
    rw [hg, ← hd', hd]

/-- The journal of a date, as `journal_page_id` finds it. -/
def Record.IsJournalOf (host : Host) (date : LocalDate) (record : Record) : Prop :=
  isJournalPage (decodeBag host record.properties) = true ∧
    ((decodeBag host record.properties).get journalDateKey).map PropertyField.values =
      some [.date date]

/-- A page that is not deleted is the journal of a date. -/
def LiveJournal (host : Host) (d : GraphDoc) (date : LocalDate) : Prop :=
  ∃ id record, d.requireLivePage id = .ok record ∧ record.entityKind = .page ∧
    record.IsJournalOf host date

/-- No entity is the journal of a date, or has the id of a new one. -/
def NoJournal (host : Host) (d : GraphDoc) (date : LocalDate) : Prop :=
  (∀ id record, d.entities.get id = some record → ¬record.IsJournalOf host date) ∧
    d.entities.get (host.journalId d.graphId date) = none

/-- What is read of a page besides the time it was changed. Its tags and its blocks are given
as they are stored: what else is read of them belongs to other entities. -/
structure PageProjection where
  title : String
  properties : PropertyBag
  tagRefs : BTreeSet TagId
  outline : Outline

def Record.projection (host : Host) (record : Record) : PageProjection where
  title := record.entityName.getD ""
  properties := (decodeBag host (record.properties.remove updatedAtKey)).retain fun field =>
    validatePropertyTarget field.key .page = .ok () ∨
      validatePropertyTarget field.key .tagMetadata = .ok ()
  tagRefs := record.tagRefs
  outline := record.outline

/-- `page_snapshot`, which finds no page that is deleted. -/
def pageProjection (host : Host) (d : GraphDoc) (id : PageId) : Option PageProjection :=
  (d.requireLivePage id).toOption.map (Record.projection host)

/-! ## Runs on a page -/

/-- An edit of the properties of a page. -/
theorem run_inBag_page {γ : Type} {x : Edit CoreError Bag γ}
    (h : d.entities.get id = some record) :
    (inBag (.page id) x).run d = ((x.run record.properties).1,
      d.setEntity id { record with properties := (x.run record.properties).2 }) := by
  rw [run_inBag (GraphDoc.propertyOwnerBag_page h)]
  show (_, d.updateRecord id fun record => { record with properties := _ }) = _
  unfold GraphDoc.updateRecord
  rw [h]

/-- What touches one page stamps it. -/
theorem run_touchTransition_page (now : Timestamp) (footprint : TransitionFootprint)
    (hblocks : footprint.blocks = []) (houtlines : footprint.outlines = ∅)
    (hentities : footprint.entities = [.page id]) (h : d.entities.get id = some record) :
    ∃ bag, (touchTransition now footprint).run d =
        (.ok (), d.setEntity id { record with properties := bag }) ∧
      record.properties.SameBut updatedAtKey bag := by
  obtain ⟨bag, hstamp, hbag, -⟩ := run_stamp now textKey_updatedAt record.properties
  refine ⟨bag, ?_, hbag⟩
  unfold touchTransition
  rw [hblocks, houtlines, hentities]
  have htouch : (touchPage now id).run d =
      (.ok (), d.setEntity id { record with properties := bag }) := by
    unfold touchPage
    rw [run_inBag_page h, hstamp]
  show (Edit.each (touchEntity now) [.page id]).run d = _
  exact (Edit.run_bind_ok htouch).trans rfl

/-- The run of a command whose one operation changes something. -/
theorem run_executeIntent_one (source : IdSource) {intent : Intent} {operation : PrimitiveOp}
    {outcome : MutationOutcome} {d₁ d₂ : GraphDoc} (hlower : lower host d intent = .ok [operation])
    (hrun : (applyOperation host source now operation).run d = (.ok outcome, d₁))
    (hchanged : outcome.changed = true)
    (htouch : (touchTransition now (.fromOperations [operation])).run d₁ = (.ok (), d₂)) :
    ∃ outcome', (executeIntent host source now intent).run d = (.ok outcome', d₂) := by
  have hprepare : (Edit.read fun d => prepareTransition host d intent).run d =
      (.ok (.new [operation]), d) := by
    refine Edit.run_read ?_
    unfold prepareTransition
    rw [hlower]
    rfl
  have hops : (applyOperations host source now [operation] {}).run d =
      (.ok (MutationOutcome.merge {} outcome), d₁) := (Edit.run_bind_ok hrun).trans rfl
  have hmerge : (MutationOutcome.merge {} outcome).changed = true := by
    show (false || outcome.changed) = true
    rw [hchanged]
    rfl
  refine ⟨MutationOutcome.merge {} outcome, (Edit.run_bind_ok hprepare).trans ?_⟩
  unfold applyTransition
  refine (Edit.run_bind_ok hops).trans ?_
  rw [if_pos hmerge]
  exact (Edit.run_bind_ok htouch).trans rfl

/-! ## Deleting and restoring -/

/-- A page that is deleted keeps everything but the two stamps. -/
theorem run_deletePage (source : IdSource) (now : Timestamp)
    (h : d.entities.get id = some record) :
    ∃ outcome bag, (executeIntent host source now (.deletePage id)).run d =
        (.ok outcome, d.setEntity id { record with properties := bag }) ∧
      ∀ key, key ≠ updatedAtKey → key ≠ deletedAtKey →
        bag.get key = record.properties.get key := by
  have hlower : lower host d (.deletePage id) = .ok [.assignDeleted (.page id) true] := by
    show (d.requirePage id >>= fun _ => _) = _
    rw [GraphDoc.requirePage_ok.mpr h]
    rfl
  obtain ⟨bag, hstamp, hbag, -⟩ := run_stamp now textKey_deletedAt record.properties
  have hassign : (assignDeleted now (.page id) true).run d =
      (.ok (), d.setEntity id { record with properties := bag }) := by
    show (inBag (.page id) (stamp now deletedAtKey)).run d = _
    rw [run_inBag_page h, hstamp]
  obtain ⟨bag', htouch, hbag'⟩ := run_touchTransition_page now
    (.fromOperations [.assignDeleted (.page id) true])
    (d := d.setEntity id { record with properties := bag }) rfl rfl rfl
    (by rw [GraphDoc.get_setEntity, if_pos rfl])
  obtain ⟨outcome, hrun⟩ := run_executeIntent_one source hlower
    ((Edit.run_bind_ok hassign).trans rfl) rfl htouch
  refine ⟨outcome, bag', ?_, fun key hkey hkey' => ?_⟩
  · rw [hrun, GraphDoc.setEntity_setEntity]
  · rw [hbag' key hkey]
    exact hbag key hkey'

/-- A title that names something, and that no other entity has. -/
def Restorable (host : Host) (d : GraphDoc) (id : PageId) (record : Record) : Prop :=
  ∃ title, record.entityName = some title ∧ validateName host title "page" = .ok () ∧
    ensurePageNameAvailable host d id title = .ok ()

theorem lower_restorePage {operations : List PrimitiveOp} (h : d.entities.get id = some record) :
    lower host d (.restorePage id) = .ok operations ↔
      operations = [.assignDeleted (.page id) false] ∧ Restorable host d id record := by
  have hlower : lower host d (.restorePage id) = (do
      let title ← orElse record.entityName (.pageNotFound id)
      validateName host title "page"
      ensurePageNameAvailable host d id title
      return [PrimitiveOp.assignDeleted (.page id) false]) := by
    show (d.requirePage id >>= fun page => orElse page.entityName _ >>= _) = _
    rw [GraphDoc.requirePage_ok.mpr h]
    rfl
  rw [hlower]
  constructor
  · intro hok
    obtain ⟨title, htitle, hok⟩ := bind_eq_ok.mp hok
    obtain ⟨_, hvalid, hok⟩ := bind_eq_ok.mp hok
    obtain ⟨_, havailable, hok⟩ := bind_eq_ok.mp hok
    exact ⟨(pure_eq_ok.mp hok).symm, title, orElse_eq_ok.mp htitle, hvalid, havailable⟩
  · intro ⟨hops, title, htitle, hvalid, havailable⟩
    rw [htitle, hops]
    refine bind_eq_ok.mpr ⟨title, rfl, ?_⟩
    rw [hvalid, havailable]
    rfl

theorem run_restorePage (source : IdSource) (now : Timestamp)
    (h : d.entities.get id = some record) (hname : Restorable host d id record) :
    ∃ outcome bag, (executeIntent host source now (.restorePage id)).run d =
        (.ok outcome, d.setEntity id { record with properties := bag }) ∧
      bag.contains deletedAtKey = false ∧
      ∀ key, key ≠ updatedAtKey → key ≠ deletedAtKey →
        bag.get key = record.properties.get key := by
  have hlower := (lower_restorePage h).mpr ⟨rfl, hname⟩
  have hassign : (assignDeleted now (.page id) false).run d =
      (.ok (), d.setEntity id { record with
        properties := record.properties.remove deletedAtKey }) := by
    show (inBag (.page id) (Edit.write (removePropertyField deletedAtKey))).run d = _
    rw [run_inBag_page h]
    rfl
  obtain ⟨bag, htouch, hbag⟩ := run_touchTransition_page now
    (.fromOperations [.assignDeleted (.page id) false])
    (d := d.setEntity id { record with properties := record.properties.remove deletedAtKey })
    rfl rfl rfl (by rw [GraphDoc.get_setEntity, if_pos rfl])
  obtain ⟨outcome, hrun⟩ := run_executeIntent_one source hlower
    ((Edit.run_bind_ok hassign).trans rfl) rfl htouch
  refine ⟨outcome, bag, ?_, ?_, fun key hkey hkey' => ?_⟩
  · rw [hrun, GraphDoc.setEntity_setEntity]
  · unfold Bag.contains
    rw [hbag deletedAtKey (by decide), Bag.get_remove, if_pos rfl]
    rfl
  · rw [hbag key hkey, Bag.get_remove, if_neg hkey']

/-- A page without a title that can be restored is refused. -/
theorem restorable_of_run {outcome : MutationOutcome} {d' : GraphDoc}
    (h : d.entities.get id = some record)
    (hrun : (executeIntent host source now (.restorePage id)).run d = (.ok outcome, d')) :
    Restorable host d id record := by
  obtain ⟨transition, d₁, hprepare, -⟩ := Edit.run_bind_eq_ok.mp hrun
  have hok : prepareTransition host d (.restorePage id) = .ok transition :=
    (Prod.mk.inj hprepare).1
  obtain ⟨operations, hlower, -⟩ := map_eq_ok.mp hok
  exact ((lower_restorePage h).mp hlower).2

/-- The page that is deleted was live and has a title that is not blank. -/
def LiveAndTitled (host : Host) (record : Record) : Prop :=
  record.properties.contains deletedAtKey = false ∧
    ∃ title, record.entityName = some title ∧ (canonicalEntityName host title).isEmpty = false

theorem validateName_ok {title : String} {entity : String} :
    validateName host title entity = .ok () ↔ (canonicalEntityName host title).isEmpty = false := by
  unfold validateName
  cases (canonicalEntityName host title).isEmpty with
  | true => exact iff_of_false nofun nofun
  | false => exact iff_of_true rfl rfl

theorem pageProjection_eq (h : d.entities.get id = some record) :
    pageProjection host d id =
      if record.properties.contains deletedAtKey = true then none
      else some (record.projection host) := by
  unfold pageProjection GraphDoc.requireLivePage
  rw [GraphDoc.requirePage_ok.mpr h]
  show (if _ then _ else _ : Except CoreError Record).toOption.map _ = _
  split_ifs <;> rfl

/-- Restored, a page is as it was before it was deleted, where it was live and has a title. -/
theorem deletePage_restorePage (h : d.entities.get id = some record) :
    ∃ outcome d₁, (executeIntent host source now (.deletePage id)).run d = (.ok outcome, d₁) ∧
      ∀ d₂, d₂.entities.get id = d₁.entities.get id →
        (∀ title, record.entityName = some title →
          ensurePageNameAvailable host d₂ id title = .ok ()) →
        ((∃ outcome' d₃, (executeIntent host source now' (.restorePage id)).run d₂ =
            (.ok outcome', d₃) ∧ pageProjection host d₃ id = pageProjection host d id) ↔
          LiveAndTitled host record) := by
  obtain ⟨outcome, bag, hdelete, hbag⟩ := run_deletePage source now h
  refine ⟨outcome, _, hdelete, fun d₂ hpage hfree => ?_⟩
  rw [GraphDoc.get_setEntity, if_pos rfl] at hpage
  constructor
  · intro ⟨outcome', d₃, hrestore, hprojection⟩
    have hrestorable := restorable_of_run hpage hrestore
    obtain ⟨outcome'', bag', hrun, hlive, -⟩ :=
      run_restorePage source now' hpage hrestorable
    obtain ⟨-, rfl⟩ := Prod.mk.inj (hrestore.symm.trans hrun)
    obtain ⟨title, htitle, hvalid, -⟩ := hrestorable
    rw [pageProjection_eq (by rw [GraphDoc.get_setEntity, if_pos rfl]), hlive,
      pageProjection_eq h] at hprojection
    refine ⟨?_, title, htitle, validateName_ok.mp hvalid⟩
    rw [Bool.eq_false_iff]
    intro hdeleted
    rw [if_pos hdeleted] at hprojection
    cases hprojection
  · intro ⟨hlive, title, htitle, hnamed⟩
    obtain ⟨outcome', bag', hrun, hlive', hbag'⟩ := run_restorePage source now'
      hpage ⟨title, htitle, validateName_ok.mpr hnamed, hfree title htitle⟩
    refine ⟨outcome', _, hrun, ?_⟩
    rw [pageProjection_eq (by rw [GraphDoc.get_setEntity, if_pos rfl]), pageProjection_eq h]
    dsimp only
    rw [hlive, hlive']
    have hsame : bag'.remove updatedAtKey = record.properties.remove updatedAtKey := by
      refine Bag.ext fun key => ?_
      rw [Bag.get_remove, Bag.get_remove]
      split_ifs with hkey
      · rfl
      by_cases hdeleted : key = deletedAtKey
      · subst hdeleted
        have hnone (bag : Bag) (hbag : bag.contains deletedAtKey = false) :
            bag.get deletedAtKey = none := Option.isSome_eq_false_iff.mp hbag |> Option.isNone_iff_eq_none.mp
        rw [hnone bag' hlive', hnone record.properties hlive]
      · rw [hbag' key hkey hdeleted]
        exact hbag key hkey hdeleted
    unfold Record.projection
    rw [hsame]
    rfl

/-! ## Journals -/

/-- What is read of a field of one valid value. -/
theorem decodeField_one {key : PropertyKey} {value : PropertyValue}
    (hvalid : validateProperty host.codec key value .single = .ok ())
    (hdocument : value.propertyType ≠ .document) :
    decodeField host key (.one value) = some ⟨key, value.propertyType, .single, [value]⟩ := by
  have hfield : validatePropertyField host.codec ⟨key, value.propertyType, .single, [value]⟩ =
      .ok () := by
    have hshape : validatePropertyShape key value.propertyType .single = .ok () :=
      suits_of_validateProperty hvalid
    unfold validatePropertyField
    rw [hshape]
    simp [validateValues, hvalid, bind, Except.bind]
  have hchecked : checkedField host ⟨key, value.propertyType, .single, [value]⟩ =
      some ⟨key, value.propertyType, .single, [value]⟩ := by
    unfold checkedField
    rw [if_pos hfield]
    rfl
  unfold decodeField StoredField.one
  cases htype : value.propertyType <;> simp_all

theorem run_present (d : GraphDoc) (id : PageId) :
    (Edit.read fun d : GraphDoc => (Except.ok (d.entities.get id).isSome : Except CoreError Bool)).run
      d = (.ok (d.entities.get id).isSome, d) := rfl

theorem ensurePage_present {kind : String} {title : Option String} {date : Option LocalDate}
    (h : d.entities.get id = some record) :
    (ensurePage now id kind title date).run d = (.ok false, d) := by
  refine (Edit.run_bind_ok (run_present d id)).trans ?_
  rw [h]
  rfl

/-- The properties of a new journal. -/
theorem run_freshJournal (now : Timestamp) (date : LocalDate) :
    ∃ bag, (do
        Edit.update (setSingle pageKindKey (.string "journal"))
        Edit.update (setSingle journalDateKey (.date date))
        initializeLifecycle now : Edit CoreError Bag Unit).run ∅ = (.ok (), bag) ∧
      FreshPage now "journal" (some date) bag := by
  obtain ⟨bag₁, hrun₁, hbag₁⟩ := @run_setSingle_absent pageKindKey
    (.string "journal") ∅ rfl rfl nofun
  obtain ⟨bag₂, hrun₂, hbag₂⟩ := @run_setSingle_absent journalDateKey
    (.date date) bag₁ (by rw [hbag₁]; rfl) rfl nofun
  obtain ⟨bag₃, hrun₃, hbag₃⟩ := @run_initializeLifecycle now bag₂
    (by rw [hbag₂, hbag₁]; rfl) (by rw [hbag₂, hbag₁]; rfl)
  refine ⟨bag₃, (Edit.run_bind_ok hrun₁).trans ((Edit.run_bind_ok hrun₂).trans hrun₃),
    ⟨fun key => ?_⟩⟩
  rw [hbag₃, hbag₂, hbag₁]
  rfl

theorem ensurePage_absent (now : Timestamp) (date : LocalDate)
    (h : d.entities.get id = none) :
    ∃ bag, (ensurePage now id "journal" none (some date)).run d =
        (.ok true, d.setEntity id { freshRecord "" with properties := bag }) ∧
      FreshPage now "journal" (some date) bag := by
  obtain ⟨bag, hrun, hbag⟩ := run_freshJournal now date
  refine ⟨bag, ?_, hbag⟩
  have hpage : (d.setEntity id (freshRecord "")).entities.get id = some (freshRecord "") := by
    rw [GraphDoc.get_setEntity, if_pos rfl]
  have hfill := run_inBag_page (x := do
    Edit.update (setSingle pageKindKey (.string "journal"))
    Edit.update (setSingle journalDateKey (.date date))
    initializeLifecycle now) hpage
  rw [show (freshRecord "").properties = ∅ from rfl, hrun, GraphDoc.setEntity_setEntity] at hfill
  refine (Edit.run_bind_ok (run_present d id)).trans ?_
  rw [h]
  have hwrite : (Edit.write (fun d : GraphDoc => d.setEntity id (freshRecord "")) :
      DocEdit Unit).run d = (.ok (), d.setEntity id (freshRecord "")) := rfl
  exact (Edit.run_bind_ok hwrite).trans ((Edit.run_bind_ok hfill).trans rfl)

/-- A record with the properties of a new journal is the journal. -/
theorem FreshPage.isJournalOf {bag : Bag} (h : FreshPage now "journal" (some date) bag)
    (hbag : bag.SameBut updatedAtKey record.properties) : record.IsJournalOf host date := by
  have hread {key : PropertyKey} {value : PropertyValue} (hkey : key ≠ updatedAtKey)
      (hget : bag.get key = some (.one value))
      (hvalid : validateProperty host.codec key value .single = .ok ())
      (hdocument : value.propertyType ≠ .document) :
      ((decodeBag host record.properties).get key).map PropertyField.values = some [value] := by
    rw [get_decodeBag, hbag key hkey, hget, Option.bind_some,
      decodeField_one hvalid hdocument]
    rfl
  constructor
  · exact decide_eq_true (hread (by decide) (h.get pageKindKey) rfl nofun)
  · exact hread (by decide) (h.get journalDateKey) rfl nofun

theorem FreshPage.not_deleted {bag bag' : Bag} (h : FreshPage now "journal" (some date) bag)
    (hbag : bag.SameBut updatedAtKey bag') : bag'.contains deletedAtKey = false := by
  unfold Bag.contains
  rw [hbag deletedAtKey (by decide), h.get]
  rfl

/-- The journal that is found is the one of its date, and where none is found its id is free or
taken by something else. -/
theorem journalPageId_cases (host : Host) (d : GraphDoc) (date : LocalDate) :
    (∃ record, d.entities.get (journalPageId host d date) = some record ∧
      record.IsJournalOf host date) ∨
    ((∀ id record, d.entities.get id = some record → ¬record.IsJournalOf host date) ∧
      journalPageId host d date = host.journalId d.graphId date) := by
  unfold journalPageId
  cases hfind : d.entities.entries.find? fun e =>
      isJournalPage (decodeBag host e.2.properties) &&
        decide (((decodeBag host e.2.properties).get journalDateKey).map PropertyField.values =
          some [.date date]) with
  | some e =>
    have hmem := BTreeMap.mem_entries.mp (List.mem_of_find?_eq_some hfind)
    have hjournal := List.find?_some hfind
    rw [Bool.and_eq_true] at hjournal
    exact .inl ⟨e.2, hmem, hjournal.1, of_decide_eq_true hjournal.2⟩
  | none =>
    refine .inr ⟨fun id record hget hjournal => ?_, rfl⟩
    refine List.find?_eq_none.mp hfind (id, record) (BTreeMap.mem_entries.mpr hget) ?_
    rw [Bool.and_eq_true]
    exact ⟨hjournal.1, decide_eq_true hjournal.2⟩

/-- A day has a live journal afterwards exactly where it had one, or had none at all. -/
theorem ensureJournal_live (date : LocalDate) :
    ∃ outcome d', (executeIntent host source now (.ensureJournal date)).run d = (.ok outcome, d') ∧
      (LiveJournal host d' date ↔ LiveJournal host d date ∨ NoJournal host d date) := by
  cases hget : d.entities.get (journalPageId host d date) with
  | some record =>
    have hensure : (ensureSeed now (.journalPage (journalPageId host d date) date)).run d =
        (.ok {}, d) := (Edit.run_bind_ok (ensurePage_present hget)).trans rfl
    refine ⟨{}, d, ?_, (or_iff_left fun hno => ?_).symm⟩
    · have hops : (applyOperations host source now
          [.ensureEntity (.journalPage (journalPageId host d date) date)] {}).run d = (.ok {}, d) :=
        (Edit.run_bind_ok hensure).trans rfl
      refine (Edit.run_bind_ok (Edit.run_read rfl)).trans ?_
      exact (Edit.run_bind_ok hops).trans rfl
    · rcases journalPageId_cases host d date with ⟨record', hget', hjournal⟩ | ⟨-, hid⟩
      · exact hno.1 _ record' hget' hjournal
      · rw [hid, hno.2] at hget
        cases hget
  | none =>
    have hno : NoJournal host d date := by
      rcases journalPageId_cases host d date with ⟨record', hget', -⟩ | ⟨hnone, hid⟩
      · rw [hget] at hget'
        cases hget'
      · exact ⟨hnone, hid ▸ hget⟩
    obtain ⟨bag, hensure, hbag⟩ := ensurePage_absent now date hget
    obtain ⟨bag', htouch, hbag'⟩ := run_touchTransition_page now
      (.fromOperations [.ensureEntity (.journalPage (journalPageId host d date) date)])
      (d := d.setEntity (journalPageId host d date) { freshRecord "" with properties := bag })
      rfl rfl rfl (by rw [GraphDoc.get_setEntity, if_pos rfl])
    have hlower : lower host d (.ensureJournal date) =
        .ok [.ensureEntity (.journalPage (journalPageId host d date) date)] := rfl
    obtain ⟨outcome, hrun⟩ := run_executeIntent_one source hlower ((Edit.run_bind_ok hensure).trans rfl) rfl htouch
    refine ⟨outcome, _, hrun, iff_of_true ⟨journalPageId host d date,
      { freshRecord "" with properties := bag' }, ?_, ?_, ?_⟩ (.inr hno)⟩
    · unfold GraphDoc.requireLivePage
      rw [GraphDoc.requirePage_ok.mpr (by rw [GraphDoc.get_setEntity, if_pos rfl])]
      show (if bag'.contains deletedAtKey = true then _ else _) = _
      rw [hbag.not_deleted hbag']
      rfl
    · rfl
    · exact hbag.isJournalOf hbag'

/-- After a journal is ensured its day has a live journal exactly where it had one or there was
none at all; and a page that is deleted can be restored as it was exactly where it was live and
has a title that is not blank. -/
theorem journals_and_pages (host : Host) (source : IdSource) (now now' : Timestamp)
    (d : GraphDoc) :
    (∀ date, ∃ outcome d', (executeIntent host source now (.ensureJournal date)).run d =
        (.ok outcome, d') ∧
      (LiveJournal host d' date ↔ LiveJournal host d date ∨ NoJournal host d date)) ∧
    ∀ id record, d.entities.get id = some record →
      ∃ outcome d₁, (executeIntent host source now (.deletePage id)).run d = (.ok outcome, d₁) ∧
        ∀ d₂, d₂.entities.get id = d₁.entities.get id →
          (∀ title, record.entityName = some title →
            ensurePageNameAvailable host d₂ id title = .ok ()) →
          ((∃ outcome' d₃, (executeIntent host source now' (.restorePage id)).run d₂ =
              (.ok outcome', d₃) ∧ pageProjection host d₃ id = pageProjection host d id) ↔
            LiveAndTitled host record) :=
  ⟨fun date => ensureJournal_live date, fun _ _ h => deletePage_restorePage h⟩

/-! ## A journal that is deleted -/

def sampleDate : LocalDate := ⟨"2026-08-03", by decide⟩

def noBlocks : IdSource := ⟨fun _ => ⟨"block", block_valid⟩, 0, nofun⟩

def emptyDoc : GraphDoc := ⟨⟨"graph", graph_valid⟩, ∅, ∅⟩

/-- A graph whose only page is a journal that is deleted. -/
def deletedJournal : GraphDoc :=
  ((executeIntent sampleHost noBlocks stagedTime (.deletePage ⟨"journal", journal_valid⟩)).run
    ((executeIntent sampleHost noBlocks stagedTime (.ensureJournal sampleDate)).run emptyDoc).2).2

/-- Nothing that is stored is live. -/
theorem deletedJournal_not_live : ¬LiveJournal sampleHost deletedJournal sampleDate := by
  intro ⟨id, record, hlive, _⟩
  have hall : deletedJournal.entities.entries.all
      (fun e => e.2.properties.contains deletedAtKey) = true := by decide +kernel
  unfold GraphDoc.requireLivePage at hlive
  obtain ⟨record', hget, hlive⟩ := bind_eq_ok.mp hlive
  have hmem := BTreeMap.mem_entries.mpr (GraphDoc.requirePage_ok.mp hget)
  have hdeleted : record'.properties.contains deletedAtKey = true :=
    List.all_eq_true.mp hall _ hmem
  rw [if_pos hdeleted] at hlive
  cases hlive

theorem deletedJournal_stays :
    (∃ outcome, (executeIntent sampleHost noBlocks stagedTime (.ensureJournal sampleDate)).run
      deletedJournal = (.ok outcome, deletedJournal)) ∧
    ¬LiveJournal sampleHost deletedJournal sampleDate ∧
    (∃ outcome, (executeIntent sampleHost noBlocks stagedTime
      (.deletePage ⟨"journal", journal_valid⟩)).run ((executeIntent sampleHost noBlocks stagedTime
        (.ensureJournal sampleDate)).run emptyDoc).2 = (.ok outcome, deletedJournal)) ∧
    (executeIntent sampleHost noBlocks stagedTime (.restorePage ⟨"journal", journal_valid⟩)).run
      deletedJournal = (.error (.emptyName "page"), deletedJournal) :=
  ⟨⟨_, rfl⟩, deletedJournal_not_live, ⟨_, rfl⟩, rfl⟩

theorem journals_and_pages_sample : ∃ outcome d₁,
    (executeIntent sampleHost noBlocks stagedTime (.deletePage samplePage)).run
      (pageWith .empty) = (.ok outcome, d₁) ∧
    ∃ outcome' d₃, (executeIntent sampleHost noBlocks stagedTime (.restorePage samplePage)).run
      d₁ = (.ok outcome', d₃) ∧
    pageProjection sampleHost d₃ samplePage = pageProjection sampleHost (pageWith .empty) samplePage := by
  obtain ⟨outcome, d₁, hdelete, hrestore⟩ :=
    (journals_and_pages sampleHost noBlocks stagedTime stagedTime (pageWith .empty)).2
      samplePage { freshRecord "Page" with outline := .empty } rfl
  obtain rfl : ((executeIntent sampleHost noBlocks stagedTime (.deletePage samplePage)).run
      (pageWith .empty)).2 = d₁ := congrArg Prod.snd hdelete
  refine ⟨outcome, _, hdelete, (hrestore _ rfl fun title htitle => ?_).mpr ⟨rfl, "Page", rfl, rfl⟩⟩
  obtain rfl : "Page" = title := Option.some.inj htitle
  rfl

end Neoseq.Core
