import Neoseq.Core.Execute

/-! What the edits of a bag leave alone, and when they succeed. Each writes one
field; a field that is there keeps its shape. -/

namespace Neoseq.Core
open Domain Document Collections

theorem Bag.get_modify (bag : Bag) (key key' : PropertyKey) (g : StoredField → StoredField)
    (hg : ∀ field, (g field).shape = field.shape) :
    (bag.modify key g hg).get key' = if key' = key then (bag.get key).map g else bag.get key' := by
  unfold Bag.modify
  split
  · next field h =>
    rw [Bag.get_insert]
    split
    · next hk => rw [h]; rfl
    · rfl
  · next h =>
    split
    · next hk =>
      subst hk
      rw [h]
      rfl
    · rfl

/-- The bags differ at `key` at most. -/
def Bag.SameBut (key : PropertyKey) (bag bag' : Bag) : Prop :=
  ∀ k, k ≠ key → bag'.get k = bag.get k

/-- A valid value has a shape its key may have. -/
theorem suits_of_validateProperty {codec : Codec} {key : PropertyKey} {value : PropertyValue}
    {cardinality : Cardinality} (h : validateProperty codec key value cardinality = .ok ()) :
    StoredPropertyShape.Suits ⟨value.propertyType, cardinality⟩ key := by
  unfold validateProperty at h
  obtain ⟨_, _, h⟩ := bind_eq_ok.mp h
  cases hd : definition key with
  | none =>
    unfold StoredPropertyShape.Suits validatePropertyShape
    rw [hd]
  | some item =>
    rw [hd] at h
    obtain ⟨_, h, _⟩ := bind_eq_ok.mp h
    exact h

/-! ## Single values -/

/-- A field that holds one value and nothing else. -/
def StoredField.one (value : PropertyValue) : StoredField where
  shape := ⟨value.propertyType, .single⟩
  single := some value

/-- Writing the value of a field that is not there creates it. -/
theorem setSingle_absent {key : PropertyKey} {value : PropertyValue} {bag : Bag}
    (h : bag.get key = none) (hs : StoredPropertyShape.Suits ⟨value.propertyType, .single⟩ key)
    (hd : value.propertyType ≠ .document) :
    ∃ bag', setSingle key value bag = .ok bag' ∧
      ∀ k, bag'.get k = if k = key then some (.one value) else bag.get k := by
  have he : ∃ bag₁, ensurePropertyField key value.propertyType .single bag = .ok bag₁ ∧
      ∀ k, bag₁.get k = if k = key then some (freshField ⟨value.propertyType, .single⟩)
        else bag.get k := by
    unfold ensurePropertyField
    split
    · next e he => exact absurd (hs.symm.trans he) (fun h => nomatch h)
    · split
      · next hc => exact absurd hc.1 hd
      · split
        · next field hf => rw [h] at hf; cases hf
        · exact ⟨_, rfl, fun k => Bag.get_insert ..⟩
  obtain ⟨bag₁, h₁, hget⟩ := he
  refine ⟨_, bind_eq_ok.mpr ⟨bag₁, h₁, rfl⟩, fun k => ?_⟩
  rw [Bag.get_modify]
  split
  · next hk =>
    rw [hget, if_pos rfl]
    cases hv : value.propertyType <;> simp_all [freshField, StoredField.one]
  · next hk => rw [hget, if_neg hk]

/-- Writing the value of a field of its shape changes the value. -/
theorem setSingle_present {key : PropertyKey} {value : PropertyValue} {bag : Bag}
    {field : StoredField} (h : bag.get key = some field)
    (hf : field.shape = ⟨value.propertyType, .single⟩) (hd : value.propertyType ≠ .document) :
    ∃ bag', setSingle key value bag = .ok bag' ∧
      ∀ k, bag'.get k = if k = key then some { field with single := some value }
        else bag.get k := by
  have hs : validatePropertyShape key value.propertyType .single = .ok () := by
    have := bag.suits key field h
    rwa [hf] at this
  have hp : validatePropertyPayloadShape field key = .ok () := by
    unfold validatePropertyPayloadShape
    rw [hf]
    cases hv : value.propertyType <;> first | rfl | exact absurd hv hd
  have he : ensurePropertyField key value.propertyType .single bag = .ok bag := by
    unfold ensurePropertyField
    split
    · next e he => rw [hs] at he; cases he
    · rw [if_neg fun hc => hd hc.1, h]
      simp only [hf, ne_eq, not_true_eq_false, if_false, hp]
      rfl
  refine ⟨_, bind_eq_ok.mpr ⟨bag, he, rfl⟩, fun k => ?_⟩
  rw [Bag.get_modify]
  split
  · rw [h]; rfl
  · rfl

/-! ## Records -/

namespace GraphDoc

theorem get_setEntity (d : GraphDoc) (id id' : PageId) (record : Record) :
    (d.setEntity id record).entities.get id' =
      if id' = id then some record else d.entities.get id' :=
  BTreeMap.get_insert ..

theorem get_updateRecord (d : GraphDoc) (id id' : PageId) (f : Record → Record) :
    (d.updateRecord id f).entities.get id' =
      if id' = id then (d.entities.get id).map f else d.entities.get id' := by
  unfold updateRecord
  split
  · next record h =>
    rw [get_setEntity, h]
    rfl
  · next h =>
    split
    · next he => rw [he, h]; rfl
    · rfl

end GraphDoc

/-! ## Runs -/

theorem run_inBag {γ : Type} {owner : PropertyOwner} {x : Edit CoreError Bag γ} {d : GraphDoc}
    {bag : Bag} (h : d.propertyOwnerBag owner = .ok bag) :
    (inBag owner x).run d = ((x.run bag).1, d.putBag owner (x.run bag).2) := by
  have hat : d.bagAt owner = bag := by
    unfold GraphDoc.bagAt
    rw [h]
    rfl
  have hr : (Edit.read fun d : GraphDoc => d.propertyOwnerBag owner).run d = (.ok bag, d) :=
    Edit.run_read h
  refine (Edit.run_bind_ok hr).trans ?_
  rw [Edit.run_zoom, hat]

theorem GraphDoc.requirePage_ok {d : GraphDoc} {id : PageId} {record : Record} :
    d.requirePage id = .ok record ↔ d.entities.get id = some record := orElse_eq_ok

theorem GraphDoc.propertyOwnerBag_page {d : GraphDoc} {id : PageId} {record : Record}
    (h : d.entities.get id = some record) :
    d.propertyOwnerBag (.page id) = .ok record.properties := by
  show (orElse (d.entities.get id) _).map Record.properties = _
  rw [h]
  rfl

theorem GraphDoc.setEntity_setEntity (d : GraphDoc) (id : PageId) (record record' : Record) :
    (d.setEntity id record).setEntity id record' = d.setEntity id record' := by
  have h : (d.entities.insert id record).insert id record' = d.entities.insert id record' := by
    refine BTreeMap.ext fun k => ?_
    simp only [BTreeMap.get_insert]
    split <;> rfl
  unfold setEntity
  simp only [h]

theorem GraphDoc.updateRecord_setEntity (d : GraphDoc) (id : PageId) (record : Record)
    (f : Record → Record) :
    (d.setEntity id record).updateRecord id f = d.setEntity id (f record) := by
  unfold updateRecord
  rw [get_setEntity, if_pos rfl]
  exact setEntity_setEntity d id record (f record)

/-! ## New entities -/

/-- The properties a page is created with. -/
structure FreshPage (now : Timestamp) (kind : String) (date : Option LocalDate) (bag : Bag) :
    Prop where
  get : ∀ key, bag.get key =
    if key = updatedAtKey ∨ key = createdAtKey then some (.one (.string now.asStr))
    else if key = journalDateKey then date.map fun date => .one (.date date)
    else if key = pageKindKey then some (.one (.string kind))
    else none

/-- An edit that writes the value of a field that is not there. -/
theorem run_setSingle_absent {key : PropertyKey} {value : PropertyValue} {bag : Bag}
    (h : bag.get key = none) (hs : StoredPropertyShape.Suits ⟨value.propertyType, .single⟩ key)
    (hd : value.propertyType ≠ .document) :
    ∃ bag', (Edit.update (setSingle key value)).run bag = (.ok (), bag') ∧
      ∀ k, bag'.get k = if k = key then some (.one value) else bag.get k := by
  obtain ⟨bag', he, hget⟩ := setSingle_absent h hs hd
  exact ⟨bag', Edit.run_update he, hget⟩

theorem suits_createdAt (now : Timestamp) :
    StoredPropertyShape.Suits ⟨(PropertyValue.string now.asStr).propertyType, .single⟩
      createdAtKey := rfl

theorem suits_updatedAt (now : Timestamp) :
    StoredPropertyShape.Suits ⟨(PropertyValue.string now.asStr).propertyType, .single⟩
      updatedAtKey := rfl

/-- Where neither stamp is there, both are written. -/
theorem run_initializeLifecycle (now : Timestamp) {bag : Bag} (hc : bag.get createdAtKey = none)
    (hu : bag.get updatedAtKey = none) :
    ∃ bag', (initializeLifecycle now).run bag = (.ok (), bag') ∧
      ∀ k, bag'.get k = if k = updatedAtKey ∨ k = createdAtKey
        then some (.one (.string now.asStr)) else bag.get k := by
  obtain ⟨bag₁, h₁, hget₁⟩ := run_setSingle_absent hc (suits_createdAt now) nofun
  have hu₁ : bag₁.get updatedAtKey = none := by rw [hget₁, if_neg (by decide), hu]
  obtain ⟨bag₂, h₂, hget₂⟩ := run_setSingle_absent hu₁ (suits_updatedAt now) nofun
  refine ⟨bag₂, (Edit.run_bind_ok h₁).trans h₂, fun k => ?_⟩
  rw [hget₂, hget₁]
  by_cases hk : k = updatedAtKey <;> by_cases hk' : k = createdAtKey <;> simp [hk, hk']

/-! ## Stamps -/

/-- A key that holds one text. -/
def TextKey (key : PropertyKey) : Prop :=
  ∀ shape : StoredPropertyShape, shape.Suits key ↔ shape = ⟨.string, .single⟩

theorem textKey_of_definition {key : PropertyKey} {spec : PropertySpec} {values : StringSpec}
    (h : definition key = some spec) (hspec : spec.shape = .single (.string values)) :
    TextKey key := by
  intro shape
  obtain ⟨valueType, cardinality⟩ := shape
  unfold StoredPropertyShape.Suits validatePropertyShape
  rw [h]
  dsimp only
  rw [hspec]
  cases valueType <;> cases cardinality <;> simp [PropertyShape.value, PropertyShape.cardinality,
    PropertyValueSpec.propertyType]

theorem textKey_updatedAt : TextKey updatedAtKey := textKey_of_definition rfl rfl

theorem textKey_deletedAt : TextKey deletedAtKey := textKey_of_definition rfl rfl

/-- A stamp can always be written. -/
theorem run_stamp (now : Timestamp) {key : PropertyKey} (hkey : TextKey key) (bag : Bag) :
    ∃ bag', (stamp now key).run bag = (.ok (), bag') ∧ bag.SameBut key bag' ∧
      bag'.contains key = true := by
  cases hget : bag.get key with
  | none =>
    obtain ⟨bag', hset, hbag⟩ := @run_setSingle_absent key (.string now.asStr) bag hget
      ((hkey _).mpr rfl) nofun
    refine ⟨bag', hset, fun k hk => ?_, ?_⟩
    · rw [hbag, if_neg hk]
    · unfold Bag.contains
      rw [hbag, if_pos rfl]
      rfl
  | some field =>
    obtain ⟨bag', hset, hbag⟩ := @setSingle_present key (.string now.asStr) bag field hget
      ((hkey _).mp (bag.suits key field hget)) nofun
    refine ⟨bag', Edit.run_update hset, fun k hk => ?_, ?_⟩
    · rw [hbag, if_neg hk]
    · unfold Bag.contains
      rw [hbag, if_pos rfl]
      rfl

end Neoseq.Core
