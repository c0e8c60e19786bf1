import Quals2017.Awsno.Stores
import Mathlib.Tactic.Common

/-!
# `list_len` and the list (`awsno/vehicles.adb:169-251`, `awsno/planes.adb:206-253`,
`awsno/trains.adb:16-143, 188-239`)

No procedure counts an entry down. `delete_vehicle` and `delete_plane` leave `list_len` one too
high, and so does `update_train` when the client does not answer the question for a new name: the
entry is deleted by then, and the early `return` skips the `append`. `delete_train` always ends at
its first question, since no answer of at most two characters fits the ten of `ts`.

* `cursorAt_eq`, `seek_eq`: where the two walks end.
* `Keeps`: a procedure that leaves the store alone.
* `Uncounts` is the condition on a request and the state it meets, **`serve_counted_iff`** the step,
  and **`counted_iff`** the run: `list_len` is right in every state of a run exactly when no request
  of the run uncounts.
-/

namespace Quals2017.Awsno

/-- `list_len` is the number of entries. -/
def Store.Counted {α : Type} (s : Store α) : Prop := s.listLen = s.list.length

theorem empty_counted {α : Type} : (Store.empty : Store α).Counted := rfl

/-- All three counters are right. -/
def Site.Counted {F : Type} (s : Site F) : Prop :=
  s.vehicles.Counted ∧ s.planes.Counted ∧ s.trains.Counted

/-! ## Where a walk ends -/

section Cursor

variable {α : Type} (l : List α)

theorem walk_none (n : Nat) : walk l n none = none := by
  induction n with
  | zero => rfl
  | succ n ih => exact ih

theorem walk_some : ∀ (n : Nat) {i : Nat}, i < l.length →
    walk l n (some i) = if i + n < l.length then some (i + n) else none
  | 0, i, h => (if_pos h).symm
  | n + 1, i, h => by
    rw [walk, next]
    by_cases hi : i + 1 < l.length
    · rw [if_pos hi, walk_some n hi, Nat.add_right_comm, Nat.add_assoc]
    · rw [if_neg hi, walk_none, if_neg (by omega)]

/-- The walk of `delete` and `update` ends at the chosen entry, or past the end. -/
theorem cursorAt_eq (choice : Int) : cursorAt l choice =
    if (choice - 1).toNat < l.length then some (choice - 1).toNat else none := by
  unfold cursorAt first
  cases l with
  | nil => exact walk_none _ _
  | cons x l =>
    rw [List.isEmpty_cons, if_neg (by simp), walk_some _ _ (by simp), Nat.zero_add]

variable {l}

/-- The loop of `update_train` ends at the chosen entry. -/
theorem seek_eq {choice : Int} : ∀ {l : List α} {i : Nat} {tslen : Int},
    tslen ≤ choice → choice < tslen + l.length → seek choice l i tslen =
      some (i + (choice - tslen).toNat)
  | [], i, tslen, h, hlt => by
    rw [List.length_nil] at hlt
    omega
  | _ :: l, i, tslen, h, hlt => by
    rw [List.length_cons] at hlt
    rw [seek]
    split_ifs with heq
    · rw [heq, Int.sub_self]
      rfl
    · rw [seek_eq (by omega) (by omega)]
      congr 1
      omega

end Cursor

/-! ## Procedures that leave the store alone -/

section Keeps

variable {ι α β γ : Type}

/-- However it ends, the procedure leaves the store alone. -/
def Keeps (p : Act (ι × Store α) β) : Prop := ∀ w, (p w).2.2 = w.2

theorem bind_ok {σ : Type} {p : Act σ β} {f : β → Act σ γ} {w w' : σ} {b : β}
    (h : p w = (.ok b, w')) : (p >>= f) w = f b w' := by
  show Act.bind p f w = _
  unfold Act.bind
  rw [h]

theorem bind_error {σ : Type} {p : Act σ β} {f : β → Act σ γ} {w w' : σ} {e : Raised}
    (h : p w = (.error e, w')) : (p >>= f) w = (.error e, w') := by
  show Act.bind p f w = _
  unfold Act.bind
  rw [h]

theorem raise_ne {σ : Type} (e : Raised) (w : σ) (b : β) : (raise e w).1 ≠ .ok b := by
  simp [raise]

theorem keeps_pure (b : β) : Keeps (pure b : Act (ι × Store α) β) := fun _ => rfl

theorem keeps_bind {p : Act (ι × Store α) β} {f : β → Act (ι × Store α) γ} (hp : Keeps p)
    (hf : ∀ b, Keeps (f b)) : Keeps (p >>= f) := by
  intro w
  have hw := hp w
  generalize hpw : p w = r at hw
  obtain ⟨b | b, w'⟩ := r
  · rw [bind_error hpw]
    exact hw
  · rw [bind_ok hpw, hf b w']
    exact hw

theorem keeps_onInput (p : Act ι β) : Keeps (onInput p : Act (ι × Store α) β) := fun _ => rfl

theorem keeps_counted {p : Act (ι × Store α) β} (hp : Keeps p) {w : ι × Store α}
    (h : w.2.Counted) : (p w).2.2.Counted := (hp w).symm ▸ h

theorem keeps_getStore : Keeps (getStore : Act (ι × Store α) (Store α)) := fun _ => rfl

theorem keeps_elementAt (ps : Option Nat) : Keeps (elementAt ps : Act (ι × Store α) α) := by
  intro w
  unfold elementAt
  cases ps.bind fun i => w.2.list[i]? <;> rfl

theorem keeps_ite {c : Prop} [Decidable c] {p q : Act (ι × Store α) β} (hp : Keeps p)
    (hq : Keeps q) : Keeps (if c then p else q) := by
  split_ifs
  · exact hp
  · exact hq

variable {F : Type} (lib : Lib F)

/-- `update_vehicle` changes nothing. -/
theorem keeps_updateVehicle : Keeps (updateVehicle lib) := by
  refine keeps_bind (keeps_onInput _) fun choice => keeps_bind keeps_getStore fun s => ?_
  refine keeps_ite (keeps_pure _) (keeps_bind (keeps_elementAt _) fun tv => ?_)
  refine keeps_bind (keeps_onInput _) fun make => keeps_bind (keeps_onInput _) fun model => ?_
  refine keeps_bind (keeps_onInput _) fun year => keeps_bind (keeps_onInput _) fun cost => ?_
  exact keeps_bind (keeps_onInput _) fun mpg => keeps_pure _

/-- `update_plane` changes nothing. -/
theorem keeps_updatePlane : Keeps (updatePlane lib) := by
  refine keeps_bind (keeps_onInput _) fun choice => keeps_bind keeps_getStore fun s => ?_
  refine keeps_ite (keeps_pure _) (keeps_bind (keeps_elementAt _) fun tp => ?_)
  refine keeps_bind (keeps_onInput _) fun manufacture => keeps_bind (keeps_onInput _) fun model => ?_
  refine keeps_bind (keeps_onInput _) fun passengers => keeps_bind (keeps_onInput _) fun cost => ?_
  exact keeps_bind (keeps_onInput _) fun mph => keeps_pure _

end Keeps

/-! ## `delete_train` -/

/-- Bytes of `ocp` the loop does not reach stay. -/
theorem readLoop_ocp : ∀ {n count : Nat} {fd : Fd} {k : Nat}, count + n ≤ k →
    (readLoop n count fd).2.ocp[k]? = fd.ocp[k]?
  | 0, _, _, _, _ => rfl
  | n + 1, count, fd, k, hk => by
    rw [readLoop]
    split
    · rfl
    · split_ifs
      · exact List.getElem?_set_ne (by omega)
      · rw [readLoop_ocp (by omega)]
        exact List.getElem?_set_ne (by omega)

/-- A C string ends at its first `NUL`. -/
theorem cstr_length_le : ∀ {s : Str} {k : Nat}, s[k]? = some 0 → (cstr s).length ≤ k
  | [], k, h => absurd h (by simp)
  | c :: s, k, h => by
    rw [cstr, List.takeWhile_cons]
    split_ifs with hc
    · cases k with
      | zero =>
        rw [List.getElem?_cons_zero, Option.some.injEq] at h
        exact absurd h (by simpa using hc)
      | succ k =>
        rw [List.getElem?_cons_succ] at h
        exact Nat.succ_le_succ (cstr_length_le h)
    · exact Nat.zero_le _

/-- **`delete_train` never gets past its first question**: at most two characters are read, and ten
would fit. -/
theorem deleteQuestion_ne (fd : Fd) : (deleteQuestion fd).1 ≠ .ok true := by
  have hlen : (cstr (readLoop 2 0 { fd with ocp := List.replicate 1025 0 }).2.ocp).length ≤ 2 :=
    cstr_length_le (by
      rw [readLoop_ocp (Nat.le_refl 2)]
      exact List.getElem?_replicate_of_lt (by decide))
  unfold deleteQuestion
  rw [bind_ok (show newString 1024 fd = (.ok (), { fd with ocp := List.replicate 1025 0 }) from rfl),
    bind_ok (show readLineC 2 _ = (.ok _, _) from rfl)]
  split_ifs with hr
  · exact fun h => absurd (Except.ok.inj h) (by decide)
  · rw [bind_ok (show value _ = (.ok _, _) from rfl), if_neg (by omega)]
    exact raise_ne _ _ _

/-- `delete_train` changes nothing. -/
theorem keeps_deleteTrain {F : Type} (lib : Lib F) : Keeps (deleteTrain lib) := by
  intro w
  have hne := deleteQuestion_ne w.1
  unfold deleteTrain
  generalize hq : deleteQuestion w.1 = r at hne
  obtain ⟨e | go, fd⟩ := r
  · rw [bind_error (show onInput deleteQuestion w = (.error e, fd, w.2) by
      unfold onInput; rw [hq])]
  · rw [bind_ok (show onInput deleteQuestion w = (.ok go, fd, w.2) by unfold onInput; rw [hq])]
    cases go with
    | false => rfl
    | true => exact absurd rfl hne

/-! ## What the others do to the counter -/

section Effects

variable {ι α β : Type}

/-- The index the client sends is that of an entry. -/
def Chooses (choice : Int) (s : Store α) : Prop :=
  0 < choice ∧ choice ≤ s.listLen ∧ choice ≤ s.list.length

instance (choice : Int) (s : Store α) : Decidable (Chooses choice s) := by
  unfold Chooses
  infer_instance

/-- An entry is counted, unless `list_len` is at the end of `Integer`. -/
theorem addEntry_counted (x : α) {w : ι × Store α} (h : w.2.Counted) :
    (addEntry x w).2.2.Counted ↔ w.2.listLen < integerLast := by
  have hw : w.2.listLen = w.2.list.length := h
  show (countEntry (w.1, { w.2 with list := w.2.list ++ [x] })).2.2.Counted ↔ _
  unfold countEntry Store.Counted
  simp only
  split_ifs with hlast
  · simp only [List.length_append, List.length_singleton]
    omega
  · simp only [List.length_append, List.length_singleton]
    omega

/-- `delete` deletes the entry the client has chosen, and does not count it down. -/
theorem deleteAt_store (choice : Int) (w : ι × Store α) : (deleteAt choice w).2.2 =
    if Chooses choice w.2 then { w.2 with list := w.2.list.eraseIdx (choice - 1).toNat }
    else w.2 := by
  unfold deleteAt
  rw [bind_ok (show getStore w = (.ok w.2, w) from rfl), cursorAt_eq]
  by_cases hc : Chooses choice w.2
  · obtain ⟨hpos, hlen, hlist⟩ := id hc
    rw [if_pos hc, if_neg (by omega), if_pos (by omega)]
    rfl
  · rw [if_neg hc]
    by_cases hout : choice > w.2.listLen ∨ choice ≤ 0
    · rw [if_pos hout]
      rfl
    · have hlist : ¬ (choice - 1).toNat < w.2.list.length := fun hlt =>
        hc ⟨by omega, by omega, by omega⟩
      rw [if_neg hout, if_neg hlist]
      rfl

theorem deleteAt_counted (choice : Int) {w : ι × Store α} (h : w.2.Counted) :
    (deleteAt choice w).2.2.Counted ↔ ¬ Chooses choice w.2 := by
  have hw : w.2.listLen = w.2.list.length := h
  rw [deleteAt_store]
  split_ifs with hc
  · have hlt : (choice - 1).toNat < w.2.list.length := by
      have := hc.1
      have := hc.2.2
      omega
    unfold Store.Counted
    simp only [List.length_eraseIdx_of_lt hlt]
    exact ⟨fun _ => by omega, fun h => absurd hc h⟩
  · exact ⟨fun _ => hc, fun _ => h⟩

/-- A procedure that goes on with what it reads. -/
theorem onInput_counted {p : Act ι β} {f : β → Act (ι × Store α) Unit} {w : ι × Store α}
    (h : w.2.Counted) {B : β → ι → Prop}
    (hf : ∀ b i, ((f b (i, w.2)).2.2.Counted ↔ ¬ B b i)) :
    ((onInput p >>= f) w).2.2.Counted ↔ ¬ ∃ b, (p w.1).1 = .ok b ∧ B b (p w.1).2 := by
  generalize hp : p w.1 = r
  obtain ⟨e | b, i⟩ := r
  · rw [bind_error (show onInput p w = (.error e, i, w.2) by unfold onInput; rw [hp])]
    exact ⟨fun _ ⟨b, hb, _⟩ => absurd hb (by simp), fun _ => h⟩
  · rw [bind_ok (show onInput p w = (.ok b, i, w.2) by unfold onInput; rw [hp]), hf b i]
    exact ⟨fun hn ⟨b', hb, hbad⟩ => hn (Except.ok.inj hb ▸ hbad), fun hn hbad => hn ⟨b, rfl, hbad⟩⟩

variable {F : Type}

/-- The client does not answer the question for a new name: it sends an empty line, a line that
begins with `NUL`, or nothing. -/
def Unanswered (tt : Train F) (fd : Fd) : Prop := ∀ tt', (askName tt fd).1 ≠ .ok (some tt')

/-- `update_train` keeps its entry exactly when the question for a new name is answered. -/
theorem replaceAt_counted (choice : Int) {w : Fd × Store (Train F)} (h : w.2.Counted) :
    (replaceAt choice w).2.2.Counted ↔
      ¬ (Chooses choice w.2 ∧ ∀ tt ∈ w.2.list[(choice - 1).toNat]?, Unanswered tt w.1) := by
  have hw : w.2.listLen = w.2.list.length := h
  unfold replaceAt
  rw [bind_ok (show getStore w = (.ok w.2, w) from rfl)]
  by_cases hc : Chooses choice w.2
  · obtain ⟨hpos, hlen, hlist⟩ := id hc
    have hlt : (choice - 1).toNat < w.2.list.length := by omega
    have hget := List.getElem?_eq_getElem hlt
    have hseek : seek choice w.2.list 0 1 = some (choice - 1).toNat := by
      rw [seek_eq (by omega) (by omega), Nat.zero_add]
    have helem : elementAt (some (choice - 1).toNat) w = (.ok w.2.list[(choice - 1).toNat], w) := by
      unfold elementAt
      rw [Option.bind_some, hget]
      rfl
    rw [if_neg (by omega), hseek, bind_ok helem, bind_ok (show deleteEntry _ w = (.ok (), _) from rfl),
      hget]
    -- The entry is gone; only the `append` behind an answer puts the number right again.
    have hgone : ¬ (Store.Counted
        { w.2 with list := w.2.list.eraseIdx (choice - 1).toNat } : Prop) := by
      unfold Store.Counted
      simp only [List.length_eraseIdx_of_lt hlt]
      omega
    have hback (tt : Train F) : Store.Counted
        { w.2 with list := w.2.list.eraseIdx (choice - 1).toNat ++ [tt] } := by
      unfold Store.Counted
      simp only [List.length_append, List.length_singleton, List.length_eraseIdx_of_lt hlt]
      omega
    have hask : ∀ {r fd}, askName w.2.list[(choice - 1).toNat] w.1 = (r, fd) →
        onInput (askName w.2.list[(choice - 1).toNat])
          (w.1, { w.2 with list := w.2.list.eraseIdx (choice - 1).toNat }) =
        (r, fd, { w.2 with list := w.2.list.eraseIdx (choice - 1).toNat }) := by
      intro r fd hr
      unfold onInput
      rw [hr]
    have hsome : (∀ tt ∈ some w.2.list[(choice - 1).toNat], Unanswered tt w.1) ↔
        Unanswered w.2.list[(choice - 1).toNat] w.1 :=
      ⟨fun hall => hall _ rfl, fun hun tt htt => Option.some.inj htt ▸ hun⟩
    rw [hsome]
    unfold Unanswered
    generalize hq : askName w.2.list[(choice - 1).toNat] w.1 = r at hask
    obtain ⟨e | tt', fd⟩ := r
    · rw [bind_error (hask rfl)]
      exact ⟨fun hcount => absurd hcount hgone, fun hn => absurd ⟨hc, fun tt' => by simp⟩ hn⟩
    · rw [bind_ok (hask rfl)]
      cases tt' with
      | none =>
        exact ⟨fun hcount => absurd hcount hgone, fun hn => absurd ⟨hc, fun tt' => by simp⟩ hn⟩
      | some tt' => exact ⟨fun _ hbad => hbad.2 tt' rfl, fun _ => hback tt'⟩
  · rw [if_pos (by
      by_contra hin
      exact hc ⟨by omega, by omega, by omega⟩)]
    exact ⟨fun _ hbad => hc hbad.1, fun _ => h⟩

end Effects

/-! ## One request -/

section Serve

variable {F : Type} (lib : Lib F)

/-- The request puts a counter wrong that was right:
* a `delete` of a vehicle or a plane, with an index that is that of an entry;
* an `update` of a train with such an index, when the question for a new name is not answered;
* an `add` of a whole record while `list_len` is `Integer'Last`. -/
def Uncounts (s : Site F) : Request → Prop
  | .vehicle .add input =>
    ∃ nv, (newVehicle lib input).1 = .ok nv ∧ ¬ s.vehicles.listLen < integerLast
  | .vehicle .update _ => False
  | .vehicle .delete input => ∃ choice, (askIndex lib input).1 = .ok choice ∧ Chooses choice s.vehicles
  | .plane .add input => ∃ np, (newPlane lib input).1 = .ok np ∧ ¬ s.planes.listLen < integerLast
  | .plane .update _ => False
  | .plane .delete input => ∃ choice, (askIndex lib input).1 = .ok choice ∧ Chooses choice s.planes
  | .train .add bytes =>
    ∃ nt, (newTrain lib ⟨bytes, []⟩).1 = .ok (some nt) ∧ ¬ s.trains.listLen < integerLast
  | .train .update bytes =>
    ∃ choice, (updateChoice lib ⟨bytes, []⟩).1 = .ok (some choice) ∧ Chooses choice s.trains ∧
      ∀ tt ∈ s.trains.list[(choice - 1).toNat]?,
        Unanswered tt (updateChoice lib ⟨bytes, []⟩).2
  | .train .delete _ => False

theorem addVehicle_counted {w : List Str × Store (Vehicle F)} (h : w.2.Counted) :
    (addVehicle lib w).2.2.Counted ↔
      ¬ ∃ nv, (newVehicle lib w.1).1 = .ok nv ∧ ¬ w.2.listLen < integerLast :=
  onInput_counted h fun nv i => (addEntry_counted nv (w := (i, w.2)) h).trans not_not.symm

theorem addPlane_counted {w : List Str × Store (Plane F)} (h : w.2.Counted) :
    (addPlane lib w).2.2.Counted ↔
      ¬ ∃ np, (newPlane lib w.1).1 = .ok np ∧ ¬ w.2.listLen < integerLast :=
  onInput_counted h fun np i => (addEntry_counted np (w := (i, w.2)) h).trans not_not.symm

theorem deleteVehicle_counted {w : List Str × Store (Vehicle F)} (h : w.2.Counted) :
    (deleteVehicle lib w).2.2.Counted ↔
      ¬ ∃ choice, (askIndex lib w.1).1 = .ok choice ∧ Chooses choice w.2 :=
  onInput_counted h fun choice i => deleteAt_counted choice (w := (i, w.2)) h

theorem deletePlane_counted {w : List Str × Store (Plane F)} (h : w.2.Counted) :
    (deletePlane lib w).2.2.Counted ↔
      ¬ ∃ choice, (askIndex lib w.1).1 = .ok choice ∧ Chooses choice w.2 :=
  onInput_counted h fun choice i => deleteAt_counted choice (w := (i, w.2)) h

theorem addTrain_counted {w : Fd × Store (Train F)} (h : w.2.Counted) :
    (addTrain lib w).2.2.Counted ↔
      ¬ ∃ nt, (newTrain lib w.1).1 = .ok (some nt) ∧ ¬ w.2.listLen < integerLast := by
  refine (onInput_counted h (B := fun o _ => ∃ nt, o = some nt ∧ ¬ w.2.listLen < integerLast)
    fun o i => ?_).trans (not_congr ?_)
  · cases o with
    | none => exact ⟨fun _ ⟨_, hn, _⟩ => absurd hn (by simp), fun _ => h⟩
    | some nt =>
      refine (addEntry_counted nt (w := (i, w.2)) h).trans ?_
      exact ⟨fun hlt ⟨_, _, hn⟩ => hn hlt, fun hn => not_not.mp fun hlt => hn ⟨nt, rfl, hlt⟩⟩
  · constructor
    · rintro ⟨o, ho, nt, rfl, hlt⟩
      exact ⟨nt, ho, hlt⟩
    · rintro ⟨nt, ho, hlt⟩
      exact ⟨some nt, ho, nt, rfl, hlt⟩

theorem updateTrain_counted {w : Fd × Store (Train F)} (h : w.2.Counted) :
    (updateTrain lib w).2.2.Counted ↔
      ¬ ∃ choice, (updateChoice lib w.1).1 = .ok (some choice) ∧ Chooses choice w.2 ∧
        ∀ tt ∈ w.2.list[(choice - 1).toNat]?, Unanswered tt (updateChoice lib w.1).2 := by
  refine (onInput_counted h (B := fun o i => ∃ choice, o = some choice ∧ Chooses choice w.2 ∧
    ∀ tt ∈ w.2.list[(choice - 1).toNat]?, Unanswered tt i) fun o i => ?_).trans (not_congr ?_)
  · cases o with
    | none => exact ⟨fun _ ⟨_, hn, _⟩ => absurd hn (by simp), fun _ => h⟩
    | some choice =>
      refine (replaceAt_counted choice (w := (i, w.2)) h).trans (not_congr ?_)
      exact ⟨fun hbad => ⟨choice, rfl, hbad⟩, fun ⟨_, hc, hbad⟩ => Option.some.inj hc ▸ hbad⟩
  · constructor
    · rintro ⟨o, ho, choice, rfl, hbad⟩
      exact ⟨choice, ho, hbad⟩
    · rintro ⟨choice, ho, hbad⟩
      exact ⟨some choice, ho, choice, rfl, hbad⟩

/-- **One request** leaves the counters right exactly when it does not uncount. -/
theorem serve_counted_iff {s : Site F} (h : s.Counted) (r : Request) :
    (serve lib r s).Counted ↔ ¬ Uncounts lib s r := by
  obtain ⟨hv, hp, ht⟩ := h
  have keep {p : Prop} (hk : p) : p ↔ ¬ False := ⟨fun _ => id, fun _ => hk⟩
  cases r with
  | vehicle op input =>
    show (_ ∧ s.planes.Counted ∧ s.trains.Counted) ↔ _
    rw [and_iff_left (And.intro hp ht)]
    cases op with
    | add => exact addVehicle_counted lib hv
    | update => exact keep (keeps_counted (keeps_updateVehicle lib) hv)
    | delete => exact deleteVehicle_counted lib hv
  | plane op input =>
    show (s.vehicles.Counted ∧ _ ∧ s.trains.Counted) ↔ _
    rw [and_iff_right hv, and_iff_left ht]
    cases op with
    | add => exact addPlane_counted lib hp
    | update => exact keep (keeps_counted (keeps_updatePlane lib) hp)
    | delete => exact deletePlane_counted lib hp
  | train op bytes =>
    show (s.vehicles.Counted ∧ s.planes.Counted ∧ _) ↔ _
    rw [and_iff_right hv, and_iff_right hp]
    cases op with
    | add => exact addTrain_counted lib ht
    | update => exact updateTrain_counted lib ht
    | delete => exact keep (keeps_counted (keeps_deleteTrain lib) ht)

/-! ## A run -/

/-- No request of the run uncounts in the state it meets. -/
def Clean (s : Site F) : List Request → Prop
  | [] => True
  | r :: rs => ¬ Uncounts lib s r ∧ Clean (serve lib r s) rs

theorem mem_states (s : Site F) (rs : List Request) : s ∈ states lib s rs := by
  cases rs with
  | nil => exact List.mem_singleton_self s
  | cons r rs => exact List.mem_cons_self

theorem states_counted_iff {s : Site F} (h : s.Counted) (rs : List Request) :
    (∀ s' ∈ states lib s rs, s'.Counted) ↔ Clean lib s rs := by
  induction rs generalizing s with
  | nil =>
    refine ⟨fun _ => trivial, fun _ s' hs' => ?_⟩
    rw [List.mem_singleton.mp hs']
    exact h
  | cons r rs ih =>
    rw [states, List.forall_mem_cons, and_iff_right h]
    constructor
    · intro hall
      have hnext := hall _ (mem_states lib _ rs)
      exact ⟨(serve_counted_iff lib h r).mp hnext, (ih hnext).mp hall⟩
    · rintro ⟨hr, hrs⟩
      exact (ih ((serve_counted_iff lib h r).mpr hr)).mpr hrs

/-- **`list_len` is the number of entries** of each store in every state of a run exactly when no
request of the run uncounts. -/
theorem counted_iff (rs : List Request) :
    (∀ s ∈ states lib Site.boot rs, s.Counted) ↔ Clean lib Site.boot rs :=
  states_counted_iff lib ⟨empty_counted, empty_counted, empty_counted⟩ rs

end Serve

/-- Decimal digits, read as the library functions read them. -/
def decimal (s : Str) : Option Nat :=
  if s ≠ [] ∧ s.all fun c => 48 ≤ c && c ≤ 57 then
    some (s.foldl (fun n c => 10 * n + (c.toNat - 48)) 0)
  else none

/-- The library functions on decimal digits. -/
def decimalLib : Lib Nat where
  integerValue s := (decimal s).map Int.ofNat
  floatValue := decimal
  atoi s := ((decimal s).getD 0 : Nat)

/-- A vehicle is added, `A`, `B`, 1, 2, 3, and deleted again. -/
def addAndDelete : List Request :=
  [.vehicle .add [[65, 10], [66, 10], [49, 10], [50, 10], [51, 10]],
    .vehicle .delete [[110, 10], [49, 10]]]

/-- `list_len` is 1 and the list is empty. -/
theorem counted_addAndDelete : ¬ ∀ (F : Type) (lib : Lib F) (rs : List Request),
    ∀ s ∈ states lib Site.boot rs, s.Counted := by
  intro h
  have hall := h Nat decimalLib addAndDelete
  have hlast := hall _ (List.mem_of_getElem? (i := 2) rfl)
  exact absurd hlast.1 (by unfold Store.Counted; decide)

end Quals2017.Awsno
