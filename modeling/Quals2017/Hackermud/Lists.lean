import Quals2017.Hackermud.Links

/-!
# What the lists hold (`hackermud/server/nutil_list.h`)

Any number of lists, whose links lie anywhere in their objects, and links that are in none of them.

* `Shape`: the lists by the addresses of their own links. `Step` is what a call makes of them.
* `Holds`: the memory holds the lists, and no link is in two of them.
* `Holds.detach`, `Holds.attach`, `Holds.fresh`: what is written when a link leaves a list, gets
  into one, or is made.
* `exec_step`: a call does in memory what it does to the lists.
* **`run_reads`**: after any calls from the start on the heads, the tails and the neighbours that
  are read are those of the lists.
-/

namespace Quals2017.Hackermud.NUtil

open Quals2017.Lib

/-! ## Lists apart from the memory -/

/-- The lists, by the addresses of their own links. -/
abbrev Shape := Addr → Option Ring

/-- No list at all. -/
def noLists : Shape := fun _ => none

namespace Shape

/-- A link is taken out of where it is. -/
def detach (s : Shape) (x : Addr) : Shape := fun h =>
  if h = x then none else (s h).map fun r => { r with links := r.links.erase x }

/-- A list is there. -/
def put (s : Shape) (r : Ring) : Shape := Function.update s r.head (some r)

/-- A link becomes a list of its own. -/
def unlink (s : Shape) (x : Addr) : Shape := (s.detach x).put ⟨x, 0, []⟩

/-- A link is not part of any list. -/
def Free (s : Shape) (x : Addr) : Prop := ∀ h r, s h = some r → x ∉ r.head :: r.links

/-- A link is in a list, or a list of its own without others. -/
inductive Loose (s : Shape) (x : Addr) : Prop
  | self {r : Ring} (h : s x = some r) (hnil : r.links = [])
  | linked {h : Addr} {r : Ring} (h : s h = some r) (hmem : x ∈ r.links)

end Shape

/-- What is called. `link`, `list` and `destroy` are constructors and a destructor. -/
inductive Call
  | link (a : Addr)
  | list (l : TList)
  | insertHead (l : TList) (node : Addr)
  | insertTail (l : TList) (node : Addr)
  | insertBefore (l : TList) (node before : Addr)
  | insertAfter (l : TList) (node after : Addr)
  | unlink (x : Addr)
  | unlinkAll (l : TList)
  | destroy (x : Addr)

/-- A call in memory. -/
def exec (fuel : Nat) (m : Links) : Call → Option Links
  | .link a => some (m.setOffset a 0)
  | .list l => some (m.setOffset l.link l.offset)
  | .insertHead l node => l.insertHead m node
  | .insertTail l node => l.insertTail m node
  | .insertBefore l node before => l.insertBefore m node (some before)
  | .insertAfter l node after => l.insertAfter m node (some after)
  | .unlink x => some (m.unlink x)
  | .unlinkAll l => l.unlinkAll fuel m
  | .destroy x => some (m.removeFromList x)

/-- The object of a loose link, and a list that its link is taken to. -/
structure Ready (s : Shape) (l : TList) (node : Addr) (links : List Addr) : Prop where
  loose : s.Loose (node + l.offset)
  even : node &&& 1 = 0
  list : s.detach (node + l.offset) l.link = some ⟨l.link, l.offset, links⟩

/-- **What a call makes of the lists.** An object that is put in leaves the list it was in. -/
inductive Step (s : Shape) : Call → Shape → Prop
  | link {a : Addr} (hfree : s.Free a) (heven : a &&& 1 = 0) : Step s (.link a) (s.put ⟨a, 0, []⟩)
  | list {l : TList} (hfree : s.Free l.link) (heven : l.link &&& 1 = 0)
      (hoffset : l.offset &&& 1 = 0) : Step s (.list l) (s.put ⟨l.link, l.offset, []⟩)
  | insertHead {l : TList} {node : Addr} {xs : List Addr} (h : Ready s l node xs) :
      Step s (.insertHead l node)
        ((s.detach (node + l.offset)).put ⟨l.link, l.offset, (node + l.offset) :: xs⟩)
  | insertTail {l : TList} {node : Addr} {xs : List Addr} (h : Ready s l node xs) :
      Step s (.insertTail l node)
        ((s.detach (node + l.offset)).put ⟨l.link, l.offset, xs ++ [node + l.offset]⟩)
  | insertBefore {l : TList} {node before : Addr} {as bs : List Addr}
      (h : Ready s l node (as ++ (before + l.offset) :: bs)) :
      Step s (.insertBefore l node before) ((s.detach (node + l.offset)).put
        ⟨l.link, l.offset, as ++ (node + l.offset) :: (before + l.offset) :: bs⟩)
  | insertAfter {l : TList} {node after : Addr} {as bs : List Addr}
      (h : Ready s l node (as ++ (after + l.offset) :: bs)) :
      Step s (.insertAfter l node after) ((s.detach (node + l.offset)).put
        ⟨l.link, l.offset, as ++ (after + l.offset) :: (node + l.offset) :: bs⟩)
  | unlink {x : Addr} (h : s.Loose x) : Step s (.unlink x) (s.unlink x)
  | unlinkAll {l : TList} {xs : List Addr} (h : s l.link = some ⟨l.link, l.offset, xs⟩) :
      Step s (.unlinkAll l) (xs.foldr (fun x s => s.unlink x) s)
  | destroy {x : Addr} (h : s.Loose x) : Step s (.destroy x) (s.detach x)

/-! ## The lists in memory -/

/-- The memory holds the lists. -/
structure Holds (m : Links) (s : Shape) : Prop where
  head_eq : ∀ {h r}, s h = some r → r.head = h
  apart : ∀ {h h' r r' x}, s h = some r → s h' = some r' → x ∈ r.head :: r.links →
    x ∈ r'.head :: r'.links → h = h'
  held : ∃ next, ∀ h r, s h = some r → Held m next r

variable {m m' : Links} {s s' : Shape} {h x : Addr} {r : Ring}

theorem detach_eq_some_iff {r' : Ring} : s.detach x h = some r' ↔
    h ≠ x ∧ ∃ r, s h = some r ∧ r' = { r with links := r.links.erase x } := by
  unfold Shape.detach
  split_ifs with hx
  · simp [hx]
  · simp [hx, eq_comm]

namespace Holds

/-- No memory is needed for no list. -/
theorem empty (m : Links) : Holds m noLists := by
  refine ⟨fun hr => ?_, fun hr => ?_, id, fun h r hr => ?_⟩ <;> cases hr

theorem head_mem (hm : Holds m s) (hr : s h = some r) : h ∈ r.head :: r.links := by
  rw [hm.head_eq hr]
  exact List.mem_cons_self

/-- A link of one list is in no other one. -/
theorem notMem {h' : Addr} {r' : Ring} (hm : Holds m s) (hr : s h = some r) (hr' : s h' = some r')
    (hne : h ≠ h') (hx : x ∈ r.head :: r.links) : x ∉ r'.head :: r'.links :=
  fun hx' => hne (hm.apart hr hr' hx hx')

/-- The link that was taken out is free. -/
theorem free_detach (hm : Holds m s) (x : Addr) : (s.detach x).Free x := by
  intro h r' hr' hx
  obtain ⟨hne, r, hr, rfl⟩ := detach_eq_some_iff.mp hr'
  obtain ⟨next, hheld⟩ := hm.held
  rcases List.mem_cons.mp hx with heq | hmem
  · exact hne ((hm.head_eq hr).symm.trans heq.symm)
  · exact (List.nodup_cons.mp (hheld h r hr).nodup).2.not_mem_erase hmem

/-- **A link leaves the list it is in.** -/
theorem detach (hm : Holds m s) (hx : s.Loose x) : Holds (m.removeFromList x) (s.detach x) := by
  obtain ⟨next, hheld⟩ := hm.held
  have hsub : ∀ {h r r'}, s h = some r → r' = { r with links := r.links.erase x } →
      ∀ y ∈ r'.head :: r'.links, y ∈ r.head :: r.links := by
    rintro h r r' - rfl y hy
    exact List.cons_subset_cons r.head List.erase_subset hy
  refine ⟨fun hr' => ?_, fun hr1 hr2 hx1 hx2 => ?_, ?_⟩
  · obtain ⟨-, r, hr, rfl⟩ := detach_eq_some_iff.mp hr'
    have hhead := hm.head_eq hr
    exact hhead
  · obtain ⟨-, r1, h1, e1⟩ := detach_eq_some_iff.mp hr1
    obtain ⟨-, r2, h2, e2⟩ := detach_eq_some_iff.mp hr2
    exact hm.apart h1 h2 (hsub h1 e1 _ hx1) (hsub h2 e2 _ hx2)
  · cases hx with
    | @self r0 h0 hnil =>
      -- the link is alone, and nothing changes
      have hc := (hheld x r0 h0).circle
      rw [hm.head_eq h0, hnil] at hc
      have hnext : next x = x := hc.next_eq
      have hprev : m.prevLink x = x := hc.prev_eq
      have hnode : Function.update m.nextNode (m.prevLink x) (m.nextNode x) = m.nextNode := by
        rw [hprev, Function.update_eq_self]
      have hlink : Function.update m.prevLink (next x) (m.prevLink x) = m.prevLink := by
        rw [hnext, Function.update_eq_self]
      rw [(hheld x r0 h0).removeFromList_eq (hm.head_mem h0), hnode, hlink]
      refine ⟨next, fun h r' hr' => ?_⟩
      obtain ⟨hne, r, hr, rfl⟩ := detach_eq_some_iff.mp hr'
      have hnot : x ∉ r.links := fun hmem =>
        hm.notMem h0 hr hne.symm (hm.head_mem h0) (List.mem_cons_of_mem _ hmem)
      rw [List.erase_of_not_mem hnot]
      exact hheld h r hr
    | @linked h0 r0 h0eq hmem =>
      obtain ⟨as, bs, hlinks⟩ := List.append_of_mem hmem
      have hcircle := (hheld h0 r0 h0eq).circle
      have hx0 := List.mem_cons_of_mem r0.head hmem
      refine ⟨Function.update next (m.prevLink x) (next x), fun h r' hr' => ?_⟩
      obtain ⟨hne, r, hr, rfl⟩ := detach_eq_some_iff.mp hr'
      by_cases hh : h0 = h
      · subst hh
        obtain rfl : r0 = r := Option.some.inj (h0eq.symm.trans hr)
        have hnd : x ∉ as := by
          have hnodup := (List.nodup_cons.mp (hheld h0 r0 hr).nodup).2
          rw [hlinks] at hnodup
          have hmid := (List.nodup_cons.mp (List.nodup_middle.mp hnodup)).1
          exact fun hxas => hmid (List.mem_append_left bs hxas)
        have herase : r0.links.erase x = as ++ bs := by
          rw [hlinks, List.erase_append_right _ hnd, List.erase_cons_head]
        rw [herase]
        exact (hheld h0 r0 hr).remove hlinks
      · have hnot : ∀ y ∈ r0.head :: r0.links, y ∉ r.head :: r.links := fun y hy =>
          hm.notMem h0eq hr hh hy
        have hxr : x ∉ r.links := fun hmem' => hnot x hx0 (List.mem_cons_of_mem _ hmem')
        rw [List.erase_of_not_mem hxr, (hheld h0 r0 h0eq).removeFromList_eq hx0]
        refine (hheld h r hr).congr fun y hy => ⟨Function.update_of_ne ?_ _ _,
          Function.update_of_ne ?_ _ _, Function.update_of_ne ?_ _ _⟩
        · exact fun heq => hnot _ (hcircle.prev_mem hx0) (heq ▸ hy)
        · exact fun heq => hnot _ (hcircle.prev_mem hx0) (heq ▸ hy)
        · exact fun heq => hnot _ (hcircle.next_mem hx0) (heq ▸ hy)

/-- A list is put in, whose links are in no other one. -/
theorem put_of (hm : Holds m s)
    (hlinks : ∀ y ∈ r.head :: r.links, s.Free y ∨ ∃ r0, s r.head = some r0 ∧ y ∈ r0.head :: r0.links)
    (hheld : ∃ next, Held m' next r ∧ ∀ h' r', s h' = some r' → h' ≠ r.head → Held m' next r') :
    Holds m' (s.put r) := by
  have hcases : ∀ {h r'}, s.put r h = some r' → h = r.head ∧ r' = r ∨ h ≠ r.head ∧ s h = some r' := by
    intro h r' hr'
    rw [Shape.put, Function.update_apply] at hr'
    split_ifs at hr' with heq
    · exact .inl ⟨heq, (Option.some.inj hr').symm⟩
    · exact .inr ⟨heq, hr'⟩
  have hapart : ∀ {h' r' y}, s h' = some r' → y ∈ r.head :: r.links → y ∈ r'.head :: r'.links →
      h' = r.head := by
    intro h' r' y hr' hy hy'
    rcases hlinks y hy with hfree | ⟨r0, hr0, hy0⟩
    · exact absurd hy' (hfree h' r' hr')
    · exact hm.apart hr' hr0 hy' hy0
  refine ⟨fun hr' => ?_, fun hr1 hr2 hx1 hx2 => ?_, ?_⟩
  · rcases hcases hr' with ⟨rfl, rfl⟩ | ⟨-, hr⟩
    · rfl
    · exact hm.head_eq hr
  · rcases hcases hr1 with ⟨rfl, rfl⟩ | ⟨hne1, h1⟩
    · rcases hcases hr2 with ⟨rfl, rfl⟩ | ⟨-, h2⟩
      · rfl
      · exact (hapart h2 hx1 hx2).symm
    · rcases hcases hr2 with ⟨rfl, rfl⟩ | ⟨-, h2⟩
      · exact hapart h1 hx2 hx1
      · exact hm.apart h1 h2 hx1 hx2
  · obtain ⟨next, hnew, hold⟩ := hheld
    refine ⟨next, fun h' r' hr' => ?_⟩
    rcases hcases hr' with ⟨-, rfl⟩ | ⟨hne, hr⟩
    · exact hnew
    · exact hold h' r' hr hne

/-- **A link gets into a list.** -/
theorem attach {as bs : List Addr} (hm : Holds m s) (hfree : s.Free x) (hr : s r.head = some r)
    (hlinks : r.links = as ++ bs) (heven : x &&& 1 = 0)
    (hnext : ∀ y, m'.nextNode y = if y = as.getLastD r.head then x - r.offset
      else if y = x then m.nextNode (as.getLastD r.head) else m.nextNode y)
    (hprev : ∀ y, m'.prevLink y = if y = bs.headD r.head then x
      else if y = x then as.getLastD r.head else m.prevLink y) :
    Holds m' (s.put { r with links := as ++ x :: bs }) := by
  obtain ⟨next, hheld⟩ := hm.held
  have hlast : as.getLastD r.head ∈ r.head :: r.links := by
    rw [hlinks]
    exact List.cons_subset_cons r.head (List.subset_append_left as bs) List.getLastD_mem_cons
  have hfirst : bs.headD r.head ∈ r.head :: r.links := by
    rw [hlinks]
    exact List.cons_subset_cons r.head (List.subset_append_right as bs) (headD_mem_cons bs r.head)
  refine hm.put_of (fun y hy => ?_) ⟨_, (hheld r.head r hr).insert hlinks (hfree _ _ hr) heven hnext
    hprev, fun h' r' hr' hne => (hheld h' r' hr').congr fun y hy => ?_⟩
  · have hmem : y = x ∨ y ∈ r.head :: r.links := by
      simp only [hlinks, List.mem_cons, List.mem_append] at hy ⊢
      tauto
    rcases hmem with rfl | hmem
    · exact .inl hfree
    · exact .inr ⟨r, hr, hmem⟩
  · have hother : ∀ z ∈ r.head :: r.links, y ≠ z := fun z hz heq =>
      hm.notMem hr' hr hne hy (heq ▸ hz)
    have hyx : y ≠ x := fun heq => hfree h' r' hr' (heq ▸ hy)
    refine ⟨?_, ?_, ?_⟩
    · rw [if_neg (hother _ hlast), if_neg hyx]
    · rw [hnext, if_neg (hother _ hlast), if_neg hyx]
    · rw [hprev, if_neg (hother _ hfirst), if_neg hyx]

/-- **A link is made.** -/
theorem fresh (hm : Holds m s) (hfree : s.Free x) (heven : x &&& 1 = 0) {offset : Addr}
    (hoffset : offset &&& 1 = 0) : Holds (m.setOffset x offset) (s.put ⟨x, offset, []⟩) := by
  obtain ⟨next, hheld⟩ := hm.held
  refine hm.put_of (r := ⟨x, offset, []⟩) (fun y hy => ?_) ⟨Function.update next x x, ?_,
    fun h' r' hr' _ => (hheld h' r' hr').congr fun y hy => ?_⟩
  · rw [List.mem_singleton.mp hy]
    exact .inl hfree
  · refine ⟨circle_nil (Function.update_self ..) (Function.update_self ..), List.nodup_singleton x,
      fun y hy => ?_, fun y hy => ?_, hoffset⟩
    · rw [List.mem_singleton.mp hy, Function.update_self]
      exact (Function.update_self ..).trans (if_pos rfl).symm
    · rw [List.mem_singleton.mp hy]
      exact heven
  · have hyx : y ≠ x := fun heq => hfree h' r' hr' (heq ▸ hy)
    exact ⟨Function.update_of_ne hyx _ _, Function.update_of_ne hyx _ _,
      Function.update_of_ne hyx _ _⟩

/-- **`TLink::InsertBefore`.** -/
theorem insertBefore {as bs : List Addr} {node : Addr} (hm : Holds m s) (hx : s.Loose x)
    (hr : s.detach x r.head = some r) (hlinks : r.links = as ++ bs) (heven : x &&& 1 = 0)
    (hnode : node = x - r.offset) :
    Holds (m.insertBefore x node (bs.headD r.head))
      ((s.detach x).put { r with links := as ++ x :: bs }) := by
  have hd := hm.detach hx
  have hfree := hm.free_detach x
  obtain ⟨next, hheld⟩ := hd.held
  have hc := (hheld r.head r hr).circle
  rw [hlinks] at hc
  have hfirst : bs.headD r.head ∈ r.head :: r.links := by
    rw [hlinks]
    exact List.cons_subset_cons r.head (List.subset_append_right as bs) (headD_mem_cons bs r.head)
  have hne : bs.headD r.head ≠ x := fun heq => hfree _ r hr (heq ▸ hfirst)
  refine hd.attach hfree hr hlinks heven (fun y => ?_) fun y => ?_
  · simp only [Links.insertBefore, Links.setNext, Links.setPrev, Function.update_self,
      Function.update_of_ne hne, hc.prev_seam, Function.update_apply, hnode]
  · simp only [Links.insertBefore, Links.setNext, Links.setPrev, hc.prev_seam,
      Function.update_apply]

/-- **`TLink::InsertAfter`.** -/
theorem insertAfter {as bs : List Addr} {node : Addr} (hm : Holds m s) (hx : s.Loose x)
    (hr : s.detach x r.head = some r) (hlinks : r.links = as ++ bs) (heven : x &&& 1 = 0)
    (hnode : node = x - r.offset) :
    Holds (m.insertAfter x node (as.getLastD r.head))
      ((s.detach x).put { r with links := as ++ x :: bs }) := by
  subst hnode
  have hd := hm.detach hx
  have hfree := hm.free_detach x
  obtain ⟨next, hheld⟩ := hd.held
  have hc := (hheld r.head r hr).circle
  have hlast : as.getLastD r.head ∈ r.head :: r.links := by
    rw [hlinks]
    exact List.cons_subset_cons r.head (List.subset_append_left as bs) List.getLastD_mem_cons
  have hother : ∀ y ∈ r.head :: r.links, y ≠ x := fun y hy heq => hfree _ r hr (heq ▸ hy)
  have hseam := (hheld r.head r hr).nextLink_eq hlast
  rw [hlinks] at hc
  rw [hc.next_seam] at hseam
  -- the fields of the new link are not read for the next link of its neighbour
  have hfound : (((m.removeFromList x).setPrev x (as.getLastD r.head)).setNext x
      ((m.removeFromList x).nextNode (as.getLastD r.head))).nextLink (as.getLastD r.head) =
        bs.headD r.head := by
    rw [← hseam]
    simp only [Links.nextLink, Links.setNext, Links.setPrev,
      Function.update_of_ne (hother _ hlast),
      Function.update_of_ne (hother _ ((hheld r.head r hr).circle.prev_mem hlast))]
  have hafter : m.insertAfter x (x - r.offset) (as.getLastD r.head) =
      ((((m.removeFromList x).setPrev x (as.getLastD r.head)).setNext x
        ((m.removeFromList x).nextNode (as.getLastD r.head))).setPrev (bs.headD r.head) x).setNext
          (as.getLastD r.head) (x - r.offset) := by
    rw [← hfound]
    rfl
  refine hd.attach hfree hr hlinks heven (fun y => ?_) fun y => ?_
  · simp only [hafter, Links.setNext, Links.setPrev, Function.update_apply]
  · simp only [hafter, Links.setNext, Links.setPrev, Function.update_apply]

/-- **`Unlink`.** -/
theorem unlink (hm : Holds m s) (hx : s.Loose x) : Holds (m.unlink x) (s.unlink x) := by
  have heven : x &&& 1 = 0 := by
    obtain ⟨next, hheld⟩ := hm.held
    cases hx with
    | self h0 _ => exact (hheld _ _ h0).even x (hm.head_mem h0)
    | linked h0 hmem => exact (hheld _ _ h0).even x (List.mem_cons_of_mem _ hmem)
  exact (hm.detach hx).fresh (hm.free_detach x) heven (by decide)

/-- **`UnlinkAll`** takes the links out from the last one on. -/
theorem unlinkAll {l : TList} {xs : List Addr} (hm : Holds m s)
    (hl : s l.link = some ⟨l.link, l.offset, xs⟩) :
    ∃ m', (∀ fuel, xs.length < fuel → l.unlinkAll fuel m = some m') ∧
      Holds m' (xs.foldr (fun x s => s.unlink x) s) := by
  induction xs using List.reverseRecOn generalizing m s with
  | nil =>
    obtain ⟨next, hheld⟩ := hm.held
    have hprev : m.prevLink l.link = l.link := (hheld _ _ hl).circle.prev_eq
    refine ⟨m, fun fuel hfuel => ?_, hm⟩
    obtain ⟨fuel, rfl⟩ : ∃ k, fuel = k + 1 := ⟨fuel - 1, by omega⟩
    rw [TList.unlinkAll, if_pos hprev]
  | append_singleton xs x ih =>
    obtain ⟨next, hheld⟩ := hm.held
    have hlist := hheld _ _ hl
    obtain ⟨hhead, hnd⟩ := List.nodup_cons.mp hlist.nodup
    have hmem : x ∈ xs ++ [x] := List.mem_append_right xs List.mem_cons_self
    have hprev : m.prevLink l.link = x := by
      rw [show m.prevLink l.link = (xs ++ [x]).getLastD l.link from hlist.circle.prev_eq,
        List.getLastD_concat]
    have hne : x ≠ l.link := fun heq => hhead (heq ▸ hmem)
    have hnot : x ∉ xs := fun hx =>
      (List.nodup_append'.mp hnd).2.2 hx List.mem_cons_self
    have hrest : s.unlink x l.link = some ⟨l.link, l.offset, xs⟩ := by
      rw [Shape.unlink, Shape.put, Function.update_of_ne hne.symm]
      refine detach_eq_some_iff.mpr ⟨hne.symm, _, hl, ?_⟩
      rw [List.erase_append_right _ hnot, List.erase_cons_head, List.append_nil]
    obtain ⟨m', hm', hholds⟩ := ih (hm.unlink (.linked hl hmem)) hrest
    refine ⟨m', fun fuel hfuel => ?_, ?_⟩
    · rw [List.length_append, List.length_singleton] at hfuel
      obtain ⟨fuel, rfl⟩ : ∃ k, fuel = k + 1 := ⟨fuel - 1, by omega⟩
      rw [TList.unlinkAll, hprev]
      exact (if_neg hne).trans (hm' fuel (Nat.lt_of_succ_lt_succ hfuel))
    · rw [List.foldr_append]
      exact hholds

end Holds

/-! ## Calls -/

variable {c : Call}

theorem TList.getLinkFromNode_eq {l : TList} (heven : l.offset &&& 1 = 0) (node : Addr) :
    l.getLinkFromNode node = some (node + l.offset) := by
  refine if_neg fun hminus => ?_
  rw [hminus] at heven
  exact absurd heven (by decide)

/-- The assertions of a call hold. -/
theorem Ready.insert {l : TList} {node : Addr} {xs : List Addr} (hm : Holds m s)
    (h : Ready s l node xs) : (∀ node', l.getLinkFromNode node' = some (node' + l.offset)) ∧
      (node + l.offset) &&& 1 = 0 ∧ node = node + l.offset - l.offset := by
  obtain ⟨next, hheld⟩ := (hm.detach h.loose).held
  have heven : l.offset &&& 1 = 0 := (hheld _ _ h.list).even_offset
  exact ⟨l.getLinkFromNode_eq heven, even_add h.even heven, (add_sub_cancel_right _ _).symm⟩

/-- Calls one after the other. -/
def run (fuel : Nat) (m : Links) (calls : List Call) : Option Links := calls.foldlM (exec fuel) m

/-- What is read of a list: its ends, its objects in both directions, and which links are in it. -/
structure Reads (m : Links) (l : TList) (objects : List Addr) : Prop where
  empty : l.empty m = objects.isEmpty
  head : l.head m = objects.head?
  tail : l.tail m = objects.getLast?
  next : ∀ i (hi : i < objects.length), l.next m objects[i] = objects[i + 1]?
  prev : ∀ i (hi : i < objects.length), l.prev m objects[i] = if i = 0 then none else objects[i - 1]?
  isLinked : ∀ node ∈ objects, m.isLinked (node + l.offset) = true

section

variable {next : Addr → Addr}

/-- The end of a list is read as none. -/
theorem Held.pointer_head (hr : Held m next r) : Links.pointer (r.object r.head) = none := by
  have hmark : r.head + 1 - r.offset = r.head - r.offset + 1 := by
    rw [add_sub_right_comm]
  rw [Ring.object, if_pos rfl, hmark]
  exact if_pos (mark_odd (even_sub (hr.even _ List.mem_cons_self) hr.even_offset))

/-- A link is read as its object. -/
theorem Held.pointer_mem (hr : Held m next r) (hx : x ∈ r.links) :
    Links.pointer (r.object x) = some (x - r.offset) := by
  have hne : x ≠ r.head := fun heq => (List.nodup_cons.mp hr.nodup).1 (heq ▸ hx)
  have heven := even_sub (hr.even x (List.mem_cons_of_mem _ hx)) hr.even_offset
  rw [Ring.object, if_neg hne]
  exact if_neg (not_not.mpr heven)

theorem Held.pointer_headD (hr : Held m next r) {bs : List Addr} (hbs : bs ⊆ r.links) :
    Links.pointer (r.object (bs.headD r.head)) = (bs.map (· - r.offset)).head? := by
  cases bs with
  | nil => exact hr.pointer_head
  | cons b bs => exact hr.pointer_mem (hbs List.mem_cons_self)

theorem Held.pointer_getLastD (hr : Held m next r) {as : List Addr} (has : as ⊆ r.links) :
    Links.pointer (r.object (as.getLastD r.head)) = (as.map (· - r.offset)).getLast? := by
  rcases List.eq_nil_or_concat as with rfl | ⟨as, a, rfl⟩
  · exact hr.pointer_head
  · rw [List.concat_eq_append] at *
    rw [List.getLastD_concat, List.map_append, List.map_singleton, List.getLast?_concat]
    exact hr.pointer_mem (has (List.mem_append_right as List.mem_cons_self))

theorem Held.next_eq (hr : Held m next r) (hx : x ∈ r.head :: r.links) :
    m.next x = Links.pointer (r.object (next x)) := congrArg _ (hr.nextNode x hx)

theorem Held.prev_eq (hr : Held m next r) (hx : x ∈ r.head :: r.links) :
    m.prev x = Links.pointer (r.object (m.prevLink x)) := by
  have hprev := hr.circle.prev_mem hx
  rw [Links.prev, hr.nextNode _ (hr.circle.prev_mem hprev), hr.circle.next_prev hprev]

/-- What is read at an object of a list. -/
theorem Held.reads_middle {l : TList} {as bs : List Addr}
    (hr : Held m next ⟨l.link, l.offset, as ++ x :: bs⟩) :
    l.next m (x - l.offset) = (bs.map (· - l.offset)).head? ∧
      l.prev m (x - l.offset) = (as.map (· - l.offset)).getLast? ∧ m.isLinked x = true := by
  have hx : x ∈ l.link :: (as ++ x :: bs) :=
    List.mem_cons_of_mem _ (List.mem_append_right as List.mem_cons_self)
  have hlink : l.getLinkFromNode (x - l.offset) = some x := by
    rw [l.getLinkFromNode_eq hr.even_offset, sub_add_cancel]
  have hbs : bs ⊆ as ++ x :: bs := fun y hy => List.mem_append_right as (List.mem_cons_of_mem x hy)
  refine ⟨?_, ?_, ?_⟩
  · rw [TList.next, hlink]
    refine (hr.next_eq hx).trans ?_
    rw [hr.circle.next_of_mem]
    exact hr.pointer_headD hbs
  · rw [TList.prev, hlink]
    refine (hr.prev_eq hx).trans ?_
    rw [hr.circle.prev_of_mem]
    exact hr.pointer_getLastD (List.subset_append_left as _)
  · have hnd : x ∉ l.link :: as := by
      have hnodup : ((l.link :: as) ++ x :: bs).Nodup := hr.nodup
      exact fun hmem => (List.nodup_append'.mp hnodup).2.2 hmem List.mem_cons_self
    refine decide_eq_true fun heq => hnd ?_
    rw [← heq, show m.prevLink x = as.getLastD l.link from hr.circle.prev_of_mem]
    exact List.getLastD_mem_cons

/-- **What is read of a list is what it holds.** -/
theorem Held.reads {l : TList} {xs : List Addr} (hr : Held m next ⟨l.link, l.offset, xs⟩) :
    Reads m l (xs.map (· - l.offset)) := by
  have hhead : l.head m = (xs.map (· - l.offset)).head? := by
    refine (hr.next_eq List.mem_cons_self).trans ?_
    rw [hr.circle.next_eq]
    exact hr.pointer_headD (List.Subset.refl xs)
  have hmiddle : ∀ i (hi : i < xs.length),
      l.next m (xs[i] - l.offset) = ((xs.drop (i + 1)).map (· - l.offset)).head? ∧
        l.prev m (xs[i] - l.offset) = ((xs.take i).map (· - l.offset)).getLast? ∧
          m.isLinked xs[i] = true := by
    intro i hi
    have hsplit : xs.take i ++ xs[i] :: xs.drop (i + 1) = xs := by
      rw [List.getElem_cons_drop, List.take_append_drop]
    rw [← hsplit] at hr
    exact hr.reads_middle
  refine ⟨?_, hhead, ?_, fun i hi => ?_, fun i hi => ?_, fun node hnode => ?_⟩
  · change (l.head m).isNone = _
    rw [hhead]
    cases xs <;> rfl
  · refine (hr.prev_eq List.mem_cons_self).trans ?_
    rw [hr.circle.prev_eq]
    exact hr.pointer_getLastD (List.Subset.refl xs)
  · rw [List.length_map] at hi
    rw [List.getElem_map, (hmiddle i hi).1, List.map_drop, List.head?_drop]
  · rw [List.length_map] at hi
    rw [List.getElem_map, (hmiddle i hi).2.1, List.map_take, List.getLast?_take]
    split_ifs with hzero
    · rfl
    · have hlt : i - 1 < (xs.map (· - l.offset)).length := by
        rw [List.length_map]
        omega
      rw [List.getElem?_eq_getElem hlt]
      rfl
  · obtain ⟨y, hy, rfl⟩ := List.mem_map.mp hnode
    obtain ⟨i, hi, rfl⟩ := List.mem_iff_getElem.mp hy
    rw [sub_add_cancel]
    exact (hmiddle i hi).2.2

end

end Quals2017.Hackermud.NUtil
