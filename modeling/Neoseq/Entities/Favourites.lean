import Neoseq.Entities.Ordering

/-! The favourites of the rail, pages and tags in one order. -/

namespace Neoseq.Entities

open Collections (StrictWeakOn sortBy)

inductive FavouriteKind where
  | page | tag
  deriving DecidableEq

structure Favourite where
  kind : FavouriteKind
  id : String
  name : String
  order : Option Rat
  deriving DecidableEq

/-- A page and a tag are separate namespaces, so the kind travels with the id. -/
def favouriteKey (entry : Favourite) : String :=
  (match entry.kind with
    | .page => "page"
    | .tag => "tag") ++ ":" ++ entry.id

def arrangedFavourites : Arranged Favourite where
  id := favouriteKey
  name := Favourite.name
  order := Favourite.order
  setOrder position entry := { entry with order := some position }
  id_setOrder _ _ := rfl
  name_setOrder _ _ := rfl
  order_setOrder _ _ := rfl

/-- The moved one lifted out and dropped before another one, or at the end. -/
def dropped (ordered : List Favourite) (moved : Favourite) (before : Option Favourite) :
    List Favourite :=
  let rest := ordered.filter fun entry => favouriteKey entry ≠ favouriteKey moved
  let index := (before.bind fun before =>
    rest.findIdx? fun entry => favouriteKey entry = favouriteKey before).getD rest.length
  rest.take index ++ moved :: rest.drop index

def moveFavourite (ordered : List Favourite) (moved : Favourite) (before : Option Favourite) :
    List (Favourite × Rat) :=
  if before.map favouriteKey = some (favouriteKey moved) then []
  else
    let next := dropped ordered moved before
    (moveWrites (next.map arrangedFavourites.placed) (favouriteKey moved)).flatMap fun write =>
      ((next.reverse.find? fun entry => favouriteKey entry = write.id).map fun entry =>
        (entry, write.order)).toList

/-- The writes for the entries are those for their keys. -/
theorem moveFavourite_eq {ordered : List Favourite} {moved : Favourite} {before : Option Favourite}
    (hbefore : before.map favouriteKey ≠ some (favouriteKey moved)) :
    (moveFavourite ordered moved before).map
        (fun placement => (⟨favouriteKey placement.1, placement.2⟩ : Placement)) =
      moveWrites ((dropped ordered moved before).map arrangedFavourites.placed)
        (favouriteKey moved) := by
  unfold moveFavourite
  rw [if_neg hbefore]
  dsimp only
  rw [List.map_flatMap]
  generalize hwrites : moveWrites ((dropped ordered moved before).map arrangedFavourites.placed)
    (favouriteKey moved) = writes
  have hkeys : ∀ write ∈ writes, ∃ entry ∈ dropped ordered moved before,
      favouriteKey entry = write.id := by
    intro write hwrite
    rw [← hwrites] at hwrite
    have hmem := mem_id_moveWrites hwrite
    rw [List.map_map] at hmem
    exact List.mem_map.mp hmem
  clear hwrites
  induction writes with
  | nil => rfl
  | cons write writes ih =>
    rw [List.flatMap_cons, ih fun other hother => hkeys other (List.mem_cons_of_mem _ hother)]
    obtain ⟨entry, hentry, hkey⟩ := hkeys write List.mem_cons_self
    cases hfind : (dropped ordered moved before).reverse.find? fun entry =>
        favouriteKey entry = write.id with
    | none =>
      have hnone := List.find?_eq_none.mp hfind entry (List.mem_reverse.mpr hentry)
      exact absurd (decide_eq_true hkey) hnone
    | some found =>
      have hfound : favouriteKey found = write.id := by simpa using List.find?_some hfind
      simp [hfound]

/-- A favourite that is moved stands where it was dropped. -/
theorem sortBy_moveFavourite {compare : String → String → Ordering}
    (hcompare : StrictWeakOn (fun _ => True) compare) {favourites : List Favourite}
    (hkeys : (favourites.map favouriteKey).Nodup) {moved : Favourite} (hmoved : moved ∈ favourites)
    {before : Option Favourite} (hbefore : before.map favouriteKey ≠ some (favouriteKey moved)) :
    let next := dropped (sortBy (arrangedFavourites.byPlace compare) favourites) moved before
    let writes := (moveFavourite (sortBy (arrangedFavourites.byPlace compare) favourites) moved
      before).map fun placement => (⟨favouriteKey placement.1, placement.2⟩ : Placement)
    sortBy (arrangedFavourites.byPlace compare)
        (favourites.map (arrangedFavourites.written writes)) =
      next.map (arrangedFavourites.written writes) := by
  intro next writes
  have hwrites : writes = moveWrites (next.map arrangedFavourites.placed) (favouriteKey moved) :=
    moveFavourite_eq hbefore
  rw [hwrites]
  refine arrangedFavourites.sortBy_moveWrites hcompare hkeys hmoved ?_
  exact List.take_append_drop _ _

end Neoseq.Entities
