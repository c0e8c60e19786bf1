import Quals2017.Empanada.Proto
import Quals2017.Lib.Linked

/-!
# Messages in the allocator (`empanada/proto.h`)

The nodes of the messages are blocks of 48 bytes that are held (`Nodes`), and the nodes of a message
are linked both ways (`Chain`). What the functions of the protocol do to them:

* `giveBack_nodes`, `freeFrom_nodes`: nodes that are held are given back once.
* `alloc_nodes`, `write_nodes`: a request that fits, and a write into another block.
* `catFrom_only`: `empGetall` writes into its block only.
-/

namespace Quals2017.Empanada

open Quals2017.Lib Quals2017.Lib.ByteMem Function

variable {host : Host} {r : Region} {h h' : Heap} {m m' : ByteMem} {B B' : Addr → Option Page}
  {e e' a n p : Addr} {live live' : List (Addr × Addr)} {ns c : List Addr} {s s' : Server}

/-! ## Fields that stay -/

/-- What the fields of a node say. -/
structure SameNode (m m' : ByteMem) (n : Addr) : Prop where
  next : nextOf m' n = nextOf m n
  prev : prevOf m' n = prevOf m n
  hash : hashFunc m' n = hashFunc m n
  type : typeOf m' n = typeOf m n
  idx : idxOf m' n = idxOf m n
  len : lenOf m' n = lenOf m n
  cmd : m' (n + 3) = m (n + 3)
  arg : m' (n + 4) = m (n + 4)

theorem sameNode_of_sameOn (hsame : SameOn m m' n.toNat 48) (hn : n.toNat + 48 ≤ 2 ^ 32) :
    SameNode m m' n := by
  have h1 : (n + 1).toNat = n.toNat + 1 := by bv_omega
  have h2 : (n + 2).toNat = n.toNat + 2 := by bv_omega
  have h3 : (n + 3).toNat = n.toNat + 3 := by bv_omega
  have h4 : (n + 4).toNat = n.toNat + 4 := by bv_omega
  have h36 : (n + 36).toNat = n.toNat + 36 := by bv_omega
  have h40 : (n + 40).toNat = n.toNat + 40 := by bv_omega
  have h44 : (n + 44).toNat = n.toNat + 44 := by bv_omega
  exact ⟨hsame.load_eq (by omega) (by omega) (by omega),
    hsame.load_eq (by omega) (by omega) (by omega), hsame.load_eq (by omega) (by omega) (by omega),
    hsame n (by omega) (by omega), hsame (n + 1) (by omega) (by omega),
    hsame (n + 2) (by omega) (by omega), hsame (n + 3) (by omega) (by omega),
    hsame (n + 4) (by omega) (by omega)⟩

/-- The fields of a node fit together. -/
structure MsgOk (host : Host) (m : ByteMem) (n : Addr) : Prop where
  hash : hashFunc m n = if typeOf m n ≠ 0 then host.cliHsum else host.srvHsum
  len : (lenOf m n).toNat ≤ 31
  empty : lenOf m n = 0 → m (n + 4) = 0

theorem MsgOk.congr (hok : MsgOk host m n) (hsame : SameNode m m' n) : MsgOk host m' n := by
  refine ⟨?_, ?_, fun hlen => ?_⟩
  · rw [hsame.hash, hsame.type]
    exact hok.hash
  · rw [hsame.len]
    exact hok.len
  · rw [hsame.arg]
    rw [hsame.len] at hlen
    exact hok.empty hlen

/-- The nodes of a message. -/
def Chain (m : ByteMem) (c : List Addr) : Prop := Linked (nextOf m) (prevOf m) 0 c 0

theorem Chain.congr (hc : Chain m c) (hsame : ∀ n ∈ c, SameNode m m' n) : Chain m' c :=
  Linked.congr hc fun n hn => ⟨(hsame n hn).next, (hsame n hn).prev⟩

/-! ## Nodes that are held -/

/-- The nodes `ns` are held, and their fields fit together. -/
structure Nodes (host : Host) (r : Region) (h : Heap) (B : Addr → Option Page) (e : Addr)
    (live : List (Addr × Addr)) (ns : List Addr) : Prop where
  laid : Laid r h B e
  held : Held B live
  nodup : ns.Nodup
  mem : ∀ n ∈ ns, (n, 48) ∈ live
  ok : ∀ n ∈ ns, MsgOk host h.mem n

namespace Nodes

theorem bounds (hc : Nodes host r h B e live ns) (hn : n ∈ ns) :
    12 < n.toNat ∧ n.toNat + 48 ≤ r.finish ∧ n.toNat + 48 < 2 ^ 32 := by
  obtain ⟨hlo, hhi⟩ : 12 < n.toNat ∧ n.toNat + 48 ≤ r.finish :=
    hc.held.bounds hc.laid (hc.mem n hn)
  have hfin := r.bound
  exact ⟨hlo, hhi, Nat.lt_of_le_of_lt hhi hfin⟩

theorem ne_zero (hc : Nodes host r h B e live ns) (hn : n ∈ ns) : n ≠ 0 := by
  rintro rfl
  exact absurd (hc.bounds hn).1 (Nat.not_lt_zero 12)

theorem allocated (hc : Nodes host r h B e live ns) (hn : n ∈ ns) : Allocated h n :=
  hc.held.used hc.laid (hc.mem n hn)

theorem sameNode (hc : Nodes host r h B e live ns) (hk : Kept h.mem m' live) (hn : n ∈ ns) :
    SameNode h.mem m' n :=
  sameNode_of_sameOn (hk (n, 48) (hc.mem n hn)) (Nat.le_of_lt (hc.bounds hn).2.2)

/-- Fewer nodes. -/
theorem sub (hc : Nodes host r h B e live ns) {ns' : List Addr} (hsub : ns'.Sublist ns) :
    Nodes host r h B e live ns' :=
  ⟨hc.laid, hc.held, hc.nodup.sublist hsub, fun n hn => hc.mem n (hsub.subset hn),
    fun n hn => hc.ok n (hsub.subset hn)⟩

theorem perm (hc : Nodes host r h B e live ns) {ns' : List Addr} (hperm : ns'.Perm ns) :
    Nodes host r h B e live ns' :=
  ⟨hc.laid, hc.held, hperm.nodup_iff.mpr hc.nodup, fun n hn => hc.mem n (hperm.subset hn),
    fun n hn => hc.ok n (hperm.subset hn)⟩

end Nodes

/-! ## Pointers that are given back -/

theorem bUsed_update_zero (m : ByteMem) (p q : Addr) (hq : bUsed m q = false) :
    bUsed (setUsed m p false) q = false := by
  by_cases hqp : q = p
  · rw [hqp]
    exact bUsed_setUsed m p false
  · unfold bUsed setUsed
    rw [update_of_ne hqp]
    exact hq

/-- What is not allocated does not become so. -/
theorem not_allocated_free (ptr : Addr) (ha : ¬Allocated h a) : ¬Allocated (free h ptr) a := by
  unfold free
  simp only []
  split_ifs
  · rintro ⟨hmem, hflag⟩
    refine ha ⟨hmem, ?_⟩
    by_contra hfree
    rw [bUsed_update_zero h.mem _ _ (Bool.eq_false_iff.mpr hfree)] at hflag
    cases hflag
  · exact ha
  · exact ha

theorem not_allocated_freed (h : Heap) (ptr : Addr) : ¬Allocated (free h ptr) ptr := by
  unfold free
  simp only []
  split_ifs with hmem hflag
  · rintro ⟨-, hflag⟩
    rw [bUsed_setUsed] at hflag
    cases hflag
  · exact fun ha => hflag ha.2
  · exact fun ha => hmem ha.1

/-- Zeros do not allocate. -/
theorem not_allocated_fill (b : Addr) (k : Nat) (ha : ¬Allocated h a) :
    ¬Allocated { h with mem := h.mem.fill b k 0 } a := by
  rintro ⟨hmem, hflag⟩
  refine ha ⟨hmem, ?_⟩
  have hbyte : (h.mem.fill b k 0 (a - 12) != 0) = true := hflag
  unfold fill at hbyte
  split_ifs at hbyte
  · cases hbyte
  · exact hbyte

/-- A node that is held is given back. -/
theorem giveBack_nodes (hc : Nodes host r s.heap B e live (n :: ns)) :
    ∃ B' live', s.giveBack n = { s with heap := free s.heap n } ∧
      Nodes host r (free s.heap n) B' e live' ns ∧
      (∀ k ∈ ns, SameNode s.mem (free s.heap n).mem k) ∧
      ∃ q j, n = q + 12 ∧ B' q = some j ∧ j.used = false ∧ 48 ≤ j.size.toNat := by
  have hn := List.mem_cons_self (a := n) (l := ns)
  obtain ⟨hnot, hnd⟩ := List.nodup_cons.mp hc.nodup
  obtain ⟨B', hl', hh', hk, hpage⟩ := free_held hc.laid hc.held (hc.mem n hn)
  have hsame : ∀ k ∈ ns, SameNode s.mem (free s.heap n).mem k := fun k hkn =>
    hc.sameNode hk (List.mem_cons_of_mem n hkn)
  refine ⟨B', _, ?_, ⟨hl', hh', hnd, fun k hkn => ?_, fun k hkn => ?_⟩, hsame, hpage⟩
  · have hall : Allocated s.heap n := hc.allocated hn
    unfold Server.giveBack
    rw [if_pos (Or.inr hall)]
  · have hne : (k, (48 : Addr)) ≠ (n, 48) := fun heq => hnot ((Prod.mk.inj heq).1 ▸ hkn)
    exact (List.mem_erase_of_ne hne).mpr (hc.mem k (List.mem_cons_of_mem n hkn))
  · exact (hc.ok k (List.mem_cons_of_mem n hkn)).congr (hsame k hkn)

/-- A step that changes the heap only, and keeps the nodes `ns`. -/
structure Keeps (s s' : Server) (ns : List Addr) : Prop where
  eq : s' = { s with heap := s'.heap }
  same : ∀ k ∈ ns, SameNode s.mem s'.mem k

theorem SameNode.trans {m'' : ByteMem} (h : SameNode m m' n) (h' : SameNode m' m'' n) :
    SameNode m m'' n :=
  ⟨h'.next.trans h.next, h'.prev.trans h.prev, h'.hash.trans h.hash, h'.type.trans h.type,
    h'.idx.trans h.idx, h'.len.trans h.len, h'.cmd.trans h.cmd, h'.arg.trans h.arg⟩

theorem SameNode.refl (m : ByteMem) (n : Addr) : SameNode m m n :=
  ⟨rfl, rfl, rfl, rfl, rfl, rfl, rfl, rfl⟩

theorem Keeps.refl (s : Server) (ns : List Addr) : Keeps s s ns :=
  ⟨rfl, fun k _ => SameNode.refl s.mem k⟩

theorem Keeps.trans {s'' : Server} (h : Keeps s s' ns) (h' : Keeps s' s'' ns) : Keeps s s'' ns := by
  refine ⟨?_, fun k hk => (h.same k hk).trans (h'.same k hk)⟩
  rw [h'.eq, h.eq]

/-- The nodes of a chain are given back. -/
theorem freeFrom_nodes {fuel : Nat} {before : Addr}
    (hchain : Linked (nextOf s.mem) (prevOf s.mem) before c 0)
    (hc : Nodes host r s.heap B e live (c ++ ns)) (h : freeFrom fuel s (c.headD 0) = some s') :
    ∃ B' live', Nodes host r s'.heap B' e live' ns ∧ Keeps s s' ns ∧
      ∀ a, ¬Allocated s.heap a → ¬Allocated s'.heap a := by
  induction c generalizing s before fuel B live with
  | nil =>
    cases fuel with
    | zero => cases h
    | succ fuel =>
      rw [List.headD_nil, freeFrom, if_pos rfl, Option.some_inj] at h
      subst h
      exact ⟨B, live, hc, Keeps.refl s ns, fun _ => id⟩
  | cons n c ih =>
    cases fuel with
    | zero => cases h
    | succ fuel =>
      have hne : n ≠ 0 := hc.ne_zero (List.mem_cons_self)
      obtain ⟨-, hnext, hrest⟩ := hchain
      rw [List.cons_append] at hc
      obtain ⟨B', live', hgive, hc', hsame, -⟩ := giveBack_nodes hc
      rw [List.headD_cons, freeFrom, if_neg hne, hnext] at h
      generalize s.giveBack n = s₁ at hgive h
      subst hgive
      have hchain' := hrest.congr fun k hk =>
        ⟨(hsame k (List.mem_append_left ns hk)).next, (hsame k (List.mem_append_left ns hk)).prev⟩
      obtain ⟨B'', live'', hc'', hkeeps, hfreed⟩ :=
        ih (s := { s with heap := free s.heap n }) hchain' hc' h
      have hfirst : Keeps s { s with heap := free s.heap n } ns :=
        ⟨rfl, fun k hk => hsame k (List.mem_append_right c hk)⟩
      exact ⟨B'', live'', hc'', hfirst.trans hkeeps,
        fun a ha => hfreed a (not_allocated_free n ha)⟩

/-- A node is given back and cleared. -/
theorem giveBack_clear (hc : Nodes host r s.heap B e live (n :: ns)) :
    ∃ h' B' live', (s.giveBack n).setMem ((s.giveBack n).mem.fill n 48 0) = { s with heap := h' } ∧
      Nodes host r h' B' e live' ns ∧ (∀ k ∈ ns, SameNode s.mem h'.mem k) ∧
      ¬Allocated h' n ∧ ∀ a, ¬Allocated s.heap a → ¬Allocated h' a := by
  obtain ⟨B', live', hgive, hc', hsame, q, j, hq, hj, hunused, hsize⟩ := giveBack_nodes hc
  have hn := hc.bounds List.mem_cons_self
  have hqn : n.toNat = q.toNat + 12 := by
    rw [hq]
    exact hc'.laid.block_toNat hj
  have hfill : OnlyOn (free s.heap n).mem ((free s.heap n).mem.fill n 48 0) n.toNat 48 :=
    onlyOn_fill _ 0 (Nat.le_of_lt hn.2.2)
  have hpage := hfill.mono (by omega : q.toNat ≤ n.toNat)
    (by omega : n.toNat + 48 ≤ q.toNat + (12 + j.size.toNat))
  have hdata := hfill.mono (by omega : q.toNat + 12 ≤ n.toNat)
    (by omega : n.toNat + 48 ≤ q.toNat + 12 + j.size.toNat)
  have hk := hc'.held.kept_unused hc'.laid hj hunused hpage
  have hsame' : ∀ k ∈ ns, SameNode (free s.heap n).mem _ k := fun k hkn => hc'.sameNode hk hkn
  refine ⟨{ free s.heap n with mem := (free s.heap n).mem.fill n 48 0 }, B', live', ?_,
    ⟨laid_data hc'.laid hj hdata, hc'.held, hc'.nodup, hc'.mem, fun k hkn =>
      (hc'.ok k hkn).congr (hsame' k hkn)⟩, fun k hkn => (hsame k hkn).trans (hsame' k hkn), ?_,
    fun a ha => ?_⟩
  · rw [hgive]
    rfl
  · exact not_allocated_fill n 48 (not_allocated_freed s.heap n)
  · exact not_allocated_fill n 48 (not_allocated_free n ha)

/-! ## Requests and writes -/

/-- A request that fits and is granted. -/
theorem alloc_nodes (size : Nat) {ptr junk : Addr} (hc : Nodes host r h B e live ns)
    (hreq : Fits r ⟨h, []⟩ (.alloc (BitVec.ofNat 32 size) 0)) (hsize : size < 2 ^ 32)
    (halloc : alloc r h (BitVec.ofNat 32 size) junk = (h', ptr)) (hptr : ptr ≠ 0) :
    ∃ B' e' live', Nodes host r h' B' e' live' ns ∧ (ptr, BitVec.ofNat 32 size) ∈ live' ∧
      ptr ∉ ns ∧ (∀ k ∈ ns, SameNode h.mem h'.mem k) ∧
      ∀ a : Addr, ptr.toNat ≤ a.toNat → a.toNat < ptr.toNat + size → h'.mem a = 0 := by
  by_cases hbig : r.start + 0x100000 ≤ r.start + BitVec.ofNat 32 size
  · have hnull : alloc r h (BitVec.ofNat 32 size) junk = (h, 0) := if_pos hbig
    rw [hnull] at halloc
    cases halloc
    exact absurd rfl hptr
  · obtain ⟨ptr', h'', B', e', hok, hg⟩ := alloc_fits hc.laid hc.held junk hbig hreq
    rw [hok] at halloc
    cases halloc
    have hsame : ∀ k ∈ ns, SameNode h.mem h'.mem k := fun k hk => hc.sameNode hg.kept hk
    refine ⟨B', e', _, ⟨hg.laid, hg.held, hc.nodup, fun k hk => List.mem_cons_of_mem _ (hc.mem k hk),
      fun k hk => (hc.ok k hk).congr (hsame k hk)⟩, List.mem_cons_self, fun hmem => ?_, hsame, ?_⟩
    · have hnd := (List.nodup_cons.mp hg.held.nodup).1
      exact hnd (List.mem_map.mpr ⟨(ptr, 48), hc.mem ptr hmem, rfl⟩)
    · have hzeros := hg.zeros
      rwa [BitVec.toNat_ofNat, Nat.mod_eq_of_lt hsize] at hzeros

/-- A write into another block. -/
theorem write_nodes (hc : Nodes host r h B e live ns) {b : Addr × Addr} (hb : b ∈ live)
    (hnot : b.1 ∉ ns) (hm : OnlyOn h.mem m' b.1.toNat b.2.toNat) :
    Nodes host r { h with mem := m' } B e live ns ∧ ∀ k ∈ ns, SameNode h.mem m' k := by
  have hsame : ∀ k ∈ ns, SameNode h.mem m' k := by
    intro k hk
    have hne : k ≠ b.1 := fun heq => hnot (heq ▸ hk)
    have hon : SameOn h.mem m' k.toNat 48 :=
      hc.held.sameOn_write hc.laid hb (hc.mem k hk) hne hm
    exact sameNode_of_sameOn hon (Nat.le_of_lt (hc.bounds hk).2.2)
  exact ⟨⟨laid_write hc.laid hc.held hb hm, hc.held, hc.nodup, hc.mem,
    fun k hk => (hc.ok k hk).congr (hsame k hk)⟩, hsame⟩

/-! ## A new node -/

/-- The link of a new node: to the one in front, if there is one. -/
theorem linkNode_fields {msg : Addr} (prev : Addr) (hmsg : msg.toNat + 48 ≤ 2 ^ 32) :
    ∃ m₁, OnlyOn m m₁ msg.toNat 48 ∧ nextOf m₁ msg = 0 ∧ prevOf m₁ msg = prev ∧ m₁ (msg + 4) = 0 ∧
      linkNode m msg prev = if prev ≠ 0 then m₁.store (prev + 44) msg else m₁ := by
  have h4 : (msg + 4).toNat = msg.toNat + 4 := by bv_omega
  have h40 : (msg + 40).toNat = msg.toNat + 40 := by bv_omega
  have h44 : (msg + 44).toNat = msg.toNat + 44 := by bv_omega
  have hfill := onlyOn_fill m (a := msg) (n := 48) 0 hmsg
  have hword : ∀ {b : Addr}, msg.toNat ≤ b.toNat → b.toNat + 4 ≤ msg.toNat + 48 →
      (m.fill msg 48 0).load b = 0 := fun hlo hhi => load_fill hlo hhi (by omega)
  have hbyte : m.fill msg 48 0 (msg + 4) = 0 := fill_of_mem (by omega) (by omega)
  by_cases hprev : prev = 0
  · refine ⟨m.fill msg 48 0, hfill, hword (by omega) (by omega), ?_, hbyte, ?_⟩
    · rw [hprev]
      exact hword (by omega) (by omega)
    · rw [linkNode, if_neg (not_not_intro hprev), if_neg (not_not_intro hprev)]
  · have hstore := onlyOn_store (m.fill msg 48 0) (a := msg + 40) prev (by omega)
    refine ⟨(m.fill msg 48 0).store (msg + 40) prev,
      hfill.trans (hstore.mono (by omega) (by omega)), ?_, load_store_self _ _ _, ?_, ?_⟩
    · rw [nextOf, load_store_ne prev (by omega) (by omega) (by omega)]
      exact hword (by omega) (by omega)
    · rw [hstore _ (by omega)]
      exact hbyte
    · rw [linkNode, if_pos hprev, if_pos hprev]

/-- The fields of a new node. -/
theorem setNode_fields (host : Host) {msg : Addr} (type index : Byte) {size : Byte}
    {data : List Byte} (hmsg : msg.toNat + 48 ≤ 2 ^ 32) (hsize : size.toNat ≤ 31)
    (hdata : data.length = size.toNat) (hempty : m (msg + 4) = 0) :
    OnlyOn m (setNode host m msg type size index data) msg.toNat 48 ∧
      nextOf (setNode host m msg type size index data) msg = nextOf m msg ∧
      prevOf (setNode host m msg type size index data) msg = prevOf m msg ∧
      MsgOk host (setNode host m msg type size index data) msg := by
  have h1 : (msg + 1).toNat = msg.toNat + 1 := by bv_omega
  have h2 : (msg + 2).toNat = msg.toNat + 2 := by bv_omega
  have h3 : (msg + 3).toNat = msg.toNat + 3 := by bv_omega
  have h4 : (msg + 4).toNat = msg.toNat + 4 := by bv_omega
  have h36 : (msg + 36).toNat = msg.toNat + 36 := by bv_omega
  have h40 : (msg + 40).toNat = msg.toNat + 40 := by bv_omega
  have h44 : (msg + 44).toNat = msg.toNat + 44 := by bv_omega
  obtain ⟨hash, hhash⟩ : ∃ hash, (if type ≠ 0 then host.cliHsum else host.srvHsum) = hash := ⟨_, rfl⟩
  have hstore := onlyOn_store m (a := msg + 36) hash (by omega)
  have htype := onlyOn_update (m.store (msg + 36) hash) msg type
  have hlen := onlyOn_update (update (m.store (msg + 36) hash) msg type) (msg + 2) size
  have hidx := onlyOn_update (update (update (m.store (msg + 36) hash) msg type) (msg + 2) size)
    (msg + 1) index
  have hwrite := onlyOn_write (update (update (update (m.store (msg + 36) hash) msg type) (msg + 2)
    size) (msg + 1) index) (a := msg + 3) data (by omega)
  -- the bytes behind `data`, then those in front
  have hbytes : OnlyOn (m.store (msg + 36) hash) (setNode host m msg type size index data)
      msg.toNat 34 := by
    rw [setNode, hhash]
    exact (((htype.mono (by omega) (by omega)).trans (hlen.mono (by omega) (by omega))).trans
      (hidx.mono (by omega) (by omega))).trans (hwrite.mono (by omega) (by omega))
  have hall : OnlyOn m (setNode host m msg type size index data) msg.toNat 48 :=
    (hstore.mono (by omega) (by omega)).trans (hbytes.mono (by omega) (by omega))
  have hword : ∀ b : Addr, msg.toNat + 40 ≤ b.toNat → b.toNat + 4 ≤ msg.toNat + 48 →
      (setNode host m msg type size index data).load b = m.load b := by
    intro b hlo hhi
    rw [hbytes.load_eq (by omega) (by omega), hstore.load_eq (by omega) (by omega)]
  have hhashOf : hashFunc (setNode host m msg type size index data) msg = hash := by
    rw [hashFunc, hbytes.load_eq (by omega) (by omega), load_store_self]
  have htypeOf : typeOf (setNode host m msg type size index data) msg = type := by
    rw [setNode, hhash, typeOf, hwrite _ (by omega), hidx _ (by omega), hlen _ (by omega),
      update_self]
  have hlenOf : lenOf (setNode host m msg type size index data) msg = size := by
    rw [setNode, hhash, lenOf, hwrite _ (by omega), hidx _ (by omega), update_self]
  refine ⟨hall, hword _ (by omega) (by omega), hword _ (by omega) (by omega), ?_, ?_, fun hzero => ?_⟩
  · rw [hhashOf, htypeOf, hhash]
  · rw [hlenOf]
    exact hsize
  · rw [hlenOf] at hzero
    have hnone : data.length = 0 := by
      rw [hdata, hzero]
      rfl
    rw [setNode, hhash, hwrite _ (by omega), hidx _ (by omega), hlen _ (by omega),
      htype _ (by omega), hstore _ (by omega)]
    exact hempty

/-! ## Strings -/

theorem text_length_le (m : ByteMem) (a : Addr) (k : Nat) : (text m a k).length ≤ k := by
  induction k generalizing a with
  | zero => exact Nat.le_refl 0
  | succ k ih =>
    unfold text
    split_ifs
    · exact Nat.zero_le _
    · exact Nat.succ_le_succ (ih (a + 1))

theorem add_ofNat_succ (a : Addr) (k : Nat) :
    a + BitVec.ofNat 32 (k + 1) = a + 1 + BitVec.ofNat 32 k := by
  rw [BitVec.add_assoc, Nat.add_comm k 1, BitVec.ofNat_add]
  rfl

/-- A string ends at its first `NUL`. -/
theorem text_length_le_of_zero {k i : Nat} (hz : m (a + BitVec.ofNat 32 i) = 0) :
    (text m a k).length ≤ i := by
  induction k generalizing a i with
  | zero => exact Nat.zero_le i
  | succ k ih =>
    unfold text
    split_ifs with hza
    · exact Nat.zero_le i
    · cases i with
      | zero =>
        rw [BitVec.add_zero] at hz
        exact absurd hz hza
      | succ i =>
        rw [add_ofNat_succ] at hz
        exact Nat.succ_le_succ (ih hz)

/-- `strncat` writes behind the string, and ends it again. -/
theorem strncat_only {dst src : Addr} {k j : Nat} {n : Nat}
    (hz : ∃ i, i ≤ k ∧ m (dst + BitVec.ofNat 32 i) = 0) (hj : (text m src n).length ≤ j)
    (hbound : dst.toNat + (k + j + 1) ≤ 2 ^ 32) :
    OnlyOn m (strncat m dst src n) dst.toNat (k + j + 1) ∧
      ∃ i, i ≤ k + j ∧ strncat m dst src n (dst + BitVec.ofNat 32 i) = 0 := by
  obtain ⟨i, hi, hzero⟩ := hz
  have hlen : strlen m dst ≤ i := text_length_le_of_zero hzero
  have hlist : (text m src n ++ [(0 : Byte)]).length = (text m src n).length + 1 :=
    List.length_append
  have hdst : (dst + BitVec.ofNat 32 (strlen m dst)).toNat = dst.toNat + strlen m dst := by
    rw [BitVec.toNat_add, BitVec.toNat_ofNat]
    omega
  have honly := onlyOn_write m (a := dst + BitVec.ofNat 32 (strlen m dst)) (text m src n ++ [0])
    (by omega)
  refine ⟨honly.mono (by omega) (by omega), strlen m dst + (text m src n).length, by omega, ?_⟩
  have hbyte := write_add (m := m) (a := dst + BitVec.ofNat 32 (strlen m dst))
    (l := text m src n ++ [0]) (k := (text m src n).length) (by omega) (by omega)
  rw [strncat, BitVec.ofNat_add, ← BitVec.add_assoc, hbyte, List.getD_eq_getElem?_getD,
    List.getElem?_concat_length]
  rfl

/-! ## The strings of the messages -/

theorem totalAll_cons (m : ByteMem) (n : Addr) (c : List Addr) :
    totalAll m (n :: c) = (lenOf m n).toNat + 1 + totalAll m c := rfl

theorem totalAll_append (m : ByteMem) (c c' : List Addr) :
    totalAll m (c ++ c') = totalAll m c + totalAll m c' := by
  rw [totalAll, List.map_append, List.sum_append]
  rfl

theorem totalAll_congr (hsame : ∀ k ∈ c, SameNode m m' k) : totalAll m' c = totalAll m c := by
  have hmap : (c.map fun k => (lenOf m' k).toNat + 1) = c.map fun k => (lenOf m k).toNat + 1 :=
    List.map_congr_left fun k hk => by rw [(hsame k hk).len]
  rw [totalAll, hmap, totalAll]

theorem totalAll_le (hlen : ∀ k ∈ c, (lenOf m k).toNat ≤ 31) : totalAll m c ≤ 32 * c.length := by
  induction c with
  | nil => exact Nat.le_refl 0
  | cons n c ih =>
    have hn := hlen n List.mem_cons_self
    have hrest := ih fun k hk => hlen k (List.mem_cons_of_mem n hk)
    rw [totalAll_cons, List.length_cons]
    omega

theorem totalLen_le (m : ByteMem) (c : List Addr) : totalLen m c ≤ totalAll m c := by
  induction c with
  | nil => exact Nat.le_refl 0
  | cons n c ih =>
    have hcons : totalLen m (n :: c) = (lenOf m n).toNat + totalLen m c := rfl
    rw [totalAll_cons, hcons]
    omega

/-- What is appended for a node is no longer than the node says. -/
theorem catNode_only {all : Addr} {k : Nat} (hok : MsgOk host m n)
    (hz : ∃ i, i ≤ k ∧ m (all + BitVec.ofNat 32 i) = 0)
    (hbound : all.toNat + (k + (lenOf m n).toNat + 1) ≤ 2 ^ 32) :
    OnlyOn m (catNode m all n) all.toNat (k + (lenOf m n).toNat + 1) ∧
      ∃ i, i ≤ k + (lenOf m n).toNat ∧ catNode m all n (all + BitVec.ofNat 32 i) = 0 := by
  have hlt := (lenOf m n).isLt
  have hwide : ((lenOf m n).setWidth 32 : Addr).toNat = (lenOf m n).toNat := by
    rw [BitVec.toNat_setWidth]
    exact Nat.mod_eq_of_lt (by omega)
  unfold catNode
  by_cases hidx : idxOf m n = 0
  · rw [if_pos hidx]
    refine strncat_only hz ?_ hbound
    by_cases hlen : lenOf m n = 0
    · have hempty : m (n + 4 + BitVec.ofNat 32 0) = 0 := by
        rw [BitVec.add_zero]
        exact hok.empty hlen
      exact Nat.le_trans (text_length_le_of_zero hempty) (Nat.zero_le _)
    · have hpos : (lenOf m n).toNat ≠ 0 := fun h => hlen (BitVec.eq_of_toNat_eq h)
      refine Nat.le_trans (text_length_le _ _ _) ?_
      generalize ((lenOf m n).setWidth 32 : Addr) = size at hwide ⊢
      bv_omega
  · rw [if_neg hidx]
    exact strncat_only hz (Nat.le_trans (text_length_le _ _ _) (Nat.le_of_eq hwide)) hbound

/-- The inner loop of `empGetall` keeps the nodes, and ends the string again. -/
theorem catFrom_nodes {all before : Addr} {fuel k size : Nat}
    (hchain : Linked (nextOf h.mem) (prevOf h.mem) before c 0) (hsub : c ⊆ ns)
    (hc : Nodes host r h B e live ns) (hb : (all, BitVec.ofNat 32 size) ∈ live) (hnot : all ∉ ns)
    (hsize : size < 2 ^ 32) (hk : k + totalAll h.mem c + 1 ≤ size)
    (hz : ∃ i, i ≤ k ∧ h.mem (all + BitVec.ofNat 32 i) = 0)
    (hcat : catFrom all fuel h.mem (c.headD 0) = some m') :
    Nodes host r { h with mem := m' } B e live ns ∧ (∀ k ∈ ns, SameNode h.mem m' k) ∧
      ∃ i, i ≤ k + totalAll h.mem c ∧ m' (all + BitVec.ofNat 32 i) = 0 := by
  induction c generalizing h before fuel k with
  | nil =>
    cases fuel with
    | zero => cases hcat
    | succ fuel =>
      rw [List.headD_nil, catFrom, if_pos rfl, Option.some_inj] at hcat
      subst hcat
      exact ⟨hc, fun k _ => SameNode.refl h.mem k, hz⟩
  | cons n c ih =>
    cases fuel with
    | zero => cases hcat
    | succ fuel =>
      have hn : n ∈ ns := hsub List.mem_cons_self
      have hrest : c ⊆ ns := fun x hx => hsub (List.mem_cons_of_mem n hx)
      have hbounds : 12 < all.toNat ∧ all.toNat + (BitVec.ofNat 32 size).toNat ≤ r.finish :=
        hc.held.bounds hc.laid hb
      have hofNat : (BitVec.ofNat 32 size).toNat = size := by
        rw [BitVec.toNat_ofNat, Nat.mod_eq_of_lt hsize]
      have hfin : r.finish < 2 ^ 32 := r.bound
      rw [totalAll_cons] at hk
      obtain ⟨honly, hz'⟩ := catNode_only (hc.ok n hn) hz (by omega)
      have hblock := honly.mono (Nat.le_refl _)
        (by omega : all.toNat + (k + (lenOf h.mem n).toNat + 1) ≤
          all.toNat + (BitVec.ofNat 32 size).toNat)
      obtain ⟨hc', hsame⟩ := write_nodes hc hb hnot hblock
      obtain ⟨-, hnext, hlink⟩ := hchain
      rw [List.headD_cons, catFrom, if_neg (hc.ne_zero hn)] at hcat
      have hnext' : nextOf (catNode h.mem all n) n = c.headD 0 := (hsame n hn).next.trans hnext
      have htotal : totalAll (catNode h.mem all n) c = totalAll h.mem c :=
        totalAll_congr fun x hx => hsame x (hrest hx)
      have hchain' := hlink.congr fun x hx => ⟨(hsame x (hrest hx)).next, (hsame x (hrest hx)).prev⟩
      obtain ⟨hc'', hsame', hz''⟩ := ih (h := { h with mem := catNode h.mem all n }) hchain' hrest hc'
        (by show k + (lenOf h.mem n).toNat + totalAll (catNode h.mem all n) c + 1 ≤ size; omega) hz'
        (by rw [← hnext']; exact hcat)
      refine ⟨hc'', fun x hx => (hsame x hx).trans (hsame' x hx), ?_⟩
      obtain ⟨i, hi, hzero⟩ := hz''
      have hi : i ≤ k + (lenOf h.mem n).toNat + totalAll (catNode h.mem all n) c := hi
      rw [totalAll_cons]
      exact ⟨i, by omega, hzero⟩

end Quals2017.Empanada
