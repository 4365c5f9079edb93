import Xv6.Core.Ring
import Xv6.Virtio.Desc

/-!
# Disk requests complete to the right buffer (`kernel/virtio_disk.c`)

The invariant says who holds which descriptor (`Owns`), what stands in the
descriptors of a call (`Formed`), how far its request is (`Reqs`), and what
the two rings hold (`Avails`, `Useds`). The indices of the rings are 16-bit
numbers that wrap; they agree with unbounded counters modulo `NUM`, because
`NUM` divides 2^16.

* `inv_inductive`: the invariant holds in every run.
* `disk_requests`: a completion reaches the buffer of its own request.
-/
namespace Xv6.Virtio
open Function (update update_self update_of_ne)

variable {m n : Nat} {D : Type}

/-! ## Where a call is -/

namespace Pc

def call : Pc n → Option (Call n)
  | .ring c => some c
  | .bump c => some c
  | .wait c _ => some c
  | .resume c _ => some c
  | _ => none

/-- The descriptors that a process holds. -/
def chain (pc : Pc n) : List Nat :=
  match pc.call with
  | none => []
  | some c => c.chain

/-- The request that a process waits for. -/
def request : Pc n → Option (Call n × Nat)
  | .wait c k => some (c, k)
  | .resume c k => some (c, k)
  | _ => none

def buf : Pc n → Option (Fin n)
  | .idle => none
  | .acquire b _ => some b
  | .alloc b _ => some b
  | .ring c => some c.b
  | .bump c => some c.b
  | .wait c _ => some c.b
  | .resume c _ => some c.b

/-- Whether a process holds `disk.vdisk_lock`. -/
def inside : Pc n → Bool
  | .alloc _ _ => true
  | .ring _ => true
  | .bump _ => true
  | .wait _ _ => true
  | _ => false

variable {pc : Pc n} {c : Call n}

theorem chain_of_call (h : pc.call = some c) : pc.chain = c.chain := by
  unfold chain
  rw [h]

theorem call_of_request {k : Nat} (h : pc.request = some (c, k)) : pc.call = some c := by
  cases pc <;> cases h <;> rfl

theorem buf_of_call (h : pc.call = some c) : pc.buf = some c.b := by
  cases pc <;> cases h <;> rfl

end Pc

variable {α : Type} {pc : Fin m → Pc n} {p : Fin m} {s s' : Sys m n D}

/-- What a process keeps when it moves to a place that has the same. -/
theorem same_at (f : Pc n → α) {x : Pc n} (h : f x = f (pc p)) :
    (fun q => f (update pc p x q)) = fun q => f (pc q) := by
  funext q
  by_cases e : q = p <;> simp [e, h]

theorem update_at (f : Pc n → α) (pc : Fin m → Pc n) (p : Fin m) (x : Pc n) :
    (fun q => f (update pc p x q)) = update (fun q => f (pc q)) p (f x) := by
  funext q
  by_cases e : q = p <;> simp [e]

/-- What a process other than `p` has after `p` has returned, it had before. -/
theorem of_idle (f : Pc n → Option α) (hf : f .idle = none) {q : Fin m} {a : α}
    (h : f (update pc p .idle q) = some a) : q ≠ p ∧ f (pc q) = some a := by
  have e : q ≠ p := fun e => by simp [e, hf] at h
  exact ⟨e, by simpa [e] using h⟩

/-! ## The invariant -/

/-- What stands in memory for a call that has its descriptors. -/
structure Formed (d : Disk n) (buf : Fin n → Buf D) (c : Call n) : Prop where
  desc0 : d.desc c.idx0 = desc0 c
  desc1 : d.desc c.idx1 = desc1 c
  desc2 : d.desc c.idx2 = desc2 c
  ops : d.ops c.idx0 = ⟨if c.write then VIRTIO_BLK_T_OUT else VIRTIO_BLK_T_IN, 0, (buf c.b).sector⟩
  info : (buf c.b).disk = true → (d.info c.idx0).b = some c.b

theorem Formed.congr {d d' : Disk n} {buf buf' : Fin n → Buf D} {c : Call n} (h : Formed d buf c)
    (hd : ∀ i ∈ c.chain, d'.desc i = d.desc i) (ho : d'.ops c.idx0 = d.ops c.idx0)
    (hb : (buf' c.b).blockno = (buf c.b).blockno)
    (hi : (buf' c.b).disk = true → (buf c.b).disk = true ∧ (d'.info c.idx0).b = (d.info c.idx0).b) :
    Formed d' buf' c := by
  refine ⟨?_, ?_, ?_, ?_, fun hdisk => ?_⟩
  · rw [hd _ (by simp [Call.chain]), h.desc0]
  · rw [hd _ (by simp [Call.chain]), h.desc1]
  · rw [hd _ (by simp [Call.chain]), h.desc2]
  · rw [ho, h.ops]
    unfold Buf.sector
    rw [hb]
  · obtain ⟨hold, hinfo⟩ := hi hdisk
    rw [hinfo, h.info hold]

/-- The requests: every one that is not handled has a process
that waits for it, and `b->disk` says which these are. -/
structure Reqs (calls : Fin m → Option (Call n)) (reqs : Fin m → Option (Call n × Nat)) (sent : List (Call n))
    (stage : Nat → Stage) (buf : Fin n → Buf D) (info : Nat → Info n) : Prop where
  unsent : ∀ p c, calls p = some c → reqs p = none → (buf c.b).disk = true
  number : ∀ p c k, reqs p = some (c, k) → sent[k]? = some c
  flag : ∀ p c k, reqs p = some (c, k) → ((buf c.b).disk = true ↔ stage k ≠ .handled)
  waiter : ∀ k c, sent[k]? = some c → stage k ≠ .handled → ∃ p, reqs p = some (c, k)
  status : ∀ k c, sent[k]? = some c → stage k = .served ∨ stage k = .posting ∨ stage k = .used →
    (info c.idx0).status = 0

/-- The avail ring holds the heads of the requests that the device has not taken. -/
structure Avails (avail : Queue) (dev : Device D) (sent : List (Call n)) (stage : Nat → Stage) : Prop where
  ring : Ring NUM avail.ring (sent.map Call.idx0) dev.took
  idx : avail.idx = UInt16.ofNat sent.length
  next : dev.next = UInt16.ofNat dev.took
  untaken : ∀ k, stage k = .avail ↔ dev.took ≤ k
  head : ∀ k c, k < dev.took → sent[k]? = some c → dev.head k = c.idx0

/-- The used ring holds the heads of the requests that are done and not handled. -/
structure Useds (used : Queue) (usedIdx : UInt16) (dev : Device D) (posted : List Nat) (seen : Nat)
    (stage : Nat → Stage) : Prop where
  ring : Ring NUM used.ring (posted.map dev.head) seen
  idx : used.idx = UInt16.ofNat posted.length
  last : usedIdx = UInt16.ofNat seen
  nodup : posted.Nodup
  counted : ∀ j k, posted[j]? = some k → stage k = if j < seen then .handled else .used
  mem : ∀ k, stage k = .used ∨ stage k = .handled → k ∈ posted
  posting : ∀ k, dev.posting = some k ↔ stage k = .posting
  slot : ∀ k, dev.posting = some k → used.ring (used.idx.toNat % NUM) = dev.head k

structure Inv (s : Sys m n D) : Prop where
  alive : s.panic = none
  owns : Owns (fun p => (s.pc p).chain) s.disk.free
  lock : ∀ p, (s.pc p).inside = true → s.lock = some (.proc p)
  held : ∀ p b, (s.pc p).buf = some b → s.held b = some p
  forms : ∀ p c, (s.pc p).call = some c → Formed s.disk s.buf c
  reqs : Reqs (fun p => (s.pc p).call) (fun p => (s.pc p).request) s.sent s.stage s.buf s.disk.info
  avails : Avails s.disk.avail s.dev s.sent s.stage
  useds : Useds s.disk.used s.disk.usedIdx s.dev s.posted s.seen s.stage
  slot : ∀ p c, s.pc p = .bump c → s.disk.avail.ring (s.disk.avail.idx.toNat % NUM) = c.idx0

/-- The code returns, in a state with the invariant. -/
abbrev Keeps (f : M m n D Unit) (s : Sys m n D) : Prop := Wp f s (fun _ s' => Inv s') fun _ => False

theorem ofNat_toNat_mod (k : Nat) : (UInt16.ofNat k).toNat % NUM = k % NUM := by
  rw [UInt16.toNat_ofNat']
  exact Nat.mod_mod_of_dvd _ (by decide)

namespace Inv
variable {s : Sys m n D} (h : Inv s)
include h

variable {p q : Fin m} {c c' : Call n} {i k : Nat} {b : Fin n} {x : Pc n}

/-- Two processes with a descriptor in common are the same. -/
theorem eq_of_mem (hp : (s.pc p).call = some c) (hq : (s.pc q).call = some c')
    (hi : i ∈ c.chain) (hi' : i ∈ c'.chain) : p = q :=
  h.owns.disjoint (i := i) ((Pc.chain_of_call hp).symm ▸ hi) ((Pc.chain_of_call hq).symm ▸ hi')

theorem idx_lt (hp : (s.pc p).call = some c) (hi : i ∈ c.chain) : i < NUM :=
  h.owns.lt (p := p) ((Pc.chain_of_call hp).symm ▸ hi)

theorem buf_inj (hp : (s.pc p).buf = some b) (hq : (s.pc q).buf = some b) : p = q := by
  exact Option.some.inj ((h.held p b hp).symm.trans (h.held q b hq))

/-- Requests that are not handled have different heads. -/
theorem open_inj {l : Nat} (hk : s.sent[k]? = some c) (hl : s.sent[l]? = some c')
    (hk' : s.stage k ≠ .handled) (hl' : s.stage l ≠ .handled) (e : c.idx0 = c'.idx0) : k = l := by
  obtain ⟨p, hp⟩ := h.reqs.waiter k c hk hk'
  obtain ⟨q, hq⟩ := h.reqs.waiter l c' hl hl'
  have hpq := h.eq_of_mem (Pc.call_of_request hp) (Pc.call_of_request hq) (i := c.idx0) List.mem_cons_self
    (e ▸ List.mem_cons_self)
  rw [hpq] at hp
  cases hp.symm.trans hq
  rfl

theorem open_lt (hk : s.sent[k]? = some c) (hk' : s.stage k ≠ .handled) : c.idx0 < NUM := by
  obtain ⟨p, hp⟩ := h.reqs.waiter k c hk hk'
  exact h.idx_lt (Pc.call_of_request hp) List.mem_cons_self

/-- A request that the device has taken was sent. -/
theorem sent_of_taken (hk : s.stage k ≠ .avail) : ∃ c, s.sent[k]? = some c ∧ s.dev.head k = c.idx0 := by
  have hlt : k < s.dev.took := by
    by_contra hge
    exact hk ((h.avails.untaken k).2 (Nat.not_lt.1 hge))
  have hle := h.avails.ring.le
  rw [List.length_map] at hle
  have hget := List.getElem?_eq_getElem (Nat.lt_of_lt_of_le hlt hle)
  exact ⟨_, hget, h.avails.head k _ hlt hget⟩

/-- There is room in the avail ring for a request that is not sent yet. -/
theorem avail_room (hc : (s.pc p).call = some c) (hr : (s.pc p).request = none) :
    s.sent.length < s.dev.took + NUM := by
  have hopen : ∀ k, s.dev.took ≤ k → s.stage k ≠ .handled := by
    intro k hk e
    simpa [e] using (h.avails.untaken k).2 hk
  have hget : ∀ (k : Nat) x, (s.sent.map Call.idx0)[k]? = some x →
      ∃ c : Call n, s.sent[k]? = some c ∧ c.idx0 = x := by
    intro k x hx
    rw [List.getElem?_map, Option.map_eq_some_iff] at hx
    exact hx
  rw [← List.length_map (f := Call.idx0)]
  refine h.avails.ring.room_of_distinct (fun i j x hi hj hx hy => ?_) (fun i x hi hx => ?_)
    (h.idx_lt hc List.mem_cons_self) fun i x hi hx e => ?_
  · obtain ⟨ci, hci, rfl⟩ := hget i x hx
    obtain ⟨cj, hcj, e⟩ := hget j _ hy
    exact h.open_inj hci hcj (hopen i hi) (hopen j hj) e.symm
  · obtain ⟨ci, hci, rfl⟩ := hget i x hx
    exact h.open_lt hci (hopen i hi)
  · obtain ⟨ci, hci, rfl⟩ := hget i x hx
    obtain ⟨q, hq⟩ := h.reqs.waiter i ci hci (hopen i hi)
    have hpq := h.eq_of_mem hc (Pc.call_of_request hq) (i := c.idx0) List.mem_cons_self
      (e ▸ List.mem_cons_self)
    rw [hpq] at hr
    cases hr.symm.trans hq

/-- There is room in the used ring for a request that is not in it yet. -/
theorem used_room (hk : s.stage k = .served ∨ s.stage k = .posting) : s.posted.length < s.seen + NUM := by
  have hne : s.stage k ≠ .avail ∧ s.stage k ≠ .handled ∧ s.stage k ≠ .used := by
    rcases hk with e | e <;> simp [e]
  have hget : ∀ j x, s.seen ≤ j → (s.posted.map s.dev.head)[j]? = some x →
      ∃ l c, s.posted[j]? = some l ∧ s.stage l = .used ∧ s.sent[l]? = some c ∧ c.idx0 = x := by
    intro j x hj hx
    rw [List.getElem?_map, Option.map_eq_some_iff] at hx
    obtain ⟨l, hl, rfl⟩ := hx
    have hst := h.useds.counted j l hl
    rw [if_neg (Nat.not_lt.2 hj)] at hst
    obtain ⟨c, hc, hhead⟩ := h.sent_of_taken (k := l) (by rw [hst]; decide)
    exact ⟨l, c, hl, hst, hc, hhead.symm⟩
  obtain ⟨c, hc, hhead⟩ := h.sent_of_taken hne.1
  have hused : ∀ {l : Nat}, s.stage l = .used → s.stage l ≠ .handled := fun e => by rw [e]; decide
  rw [← List.length_map (f := s.dev.head)]
  refine h.useds.ring.room_of_distinct (fun i j x hi hj hx hy => ?_) (fun i x hi hx => ?_)
    (h.open_lt hc hne.2.1) fun i x hi hx e => ?_
  · obtain ⟨a, ca, ha, hsa, hca, rfl⟩ := hget i x hi hx
    obtain ⟨b, cb, hb, hsb, hcb, e⟩ := hget j _ hj hy
    have hab := h.open_inj hca hcb (hused hsa) (hused hsb) e.symm
    rw [← hab] at hb
    exact (List.getElem?_inj (List.getElem?_eq_some_iff.1 ha).1 h.useds.nodup).1 (ha.trans hb.symm)
  · obtain ⟨a, ca, ha, hsa, hca, rfl⟩ := hget i x hi hx
    exact h.open_lt hca (hused hsa)
  · obtain ⟨a, ca, ha, hsa, hca, rfl⟩ := hget i x hi hx
    have hak := h.open_inj hca hc (hused hsa) hne.2.1 e
    rw [hak] at hsa
    exact hne.2.2 hsa

/-- A process moves to a place with the same call and the same request. -/
theorem move {lock : Option (Holder m)} (asleep : Fin m → Option (Chan n))
    (hcall : x.call = (s.pc p).call) (hreq : x.request = (s.pc p).request)
    (hheld : ∀ b, x.buf = some b → s.held b = some p)
    (hlock : ∀ q, (update s.pc p x q).inside = true → lock = some (.proc q)) (hbump : ∀ c, x ≠ .bump c) :
    Inv { s with pc := update s.pc p x, lock := lock, asleep := asleep } := by
  have hcalls := same_at Pc.call hcall
  have hchain : x.chain = (s.pc p).chain := by
    unfold Pc.chain
    rw [hcall]
  refine ⟨h.alive, same_at Pc.chain hchain ▸ h.owns, hlock, fun q b hq => ?_, fun q c hq => ?_,
    ?_, h.avails, h.useds, fun q c hq => ?_⟩
  · by_cases e : q = p
    · exact e ▸ hheld b (by simpa [e] using hq)
    · exact h.held q b (by simpa [e] using hq)
  · exact h.forms q c ((congrFun hcalls q).symm.trans hq)
  · show Reqs (fun q => (update s.pc p x q).call) (fun q => (update s.pc p x q).request) _ _ _ _
    rw [hcalls, same_at Pc.request hreq]
    exact h.reqs
  · by_cases e : q = p
    · exact absurd (by simpa [e] using hq) (hbump c)
    · exact h.slot q c (by simpa [e] using hq)

/-- A process that holds the lock of a buffer calls `virtio_disk_rw`. -/
theorem call {write : Bool} (hpc : s.pc p = .idle) (hb : s.held b = some p) :
    Inv { s with pc := update s.pc p (.acquire b write) } := by
  refine h.move s.asleep (by rw [hpc]; rfl) (by rw [hpc]; rfl) (fun b' e => ?_)
    (fun q hq => h.lock q ?_) (by simp)
  · cases e
    exact hb
  · exact (congrFun (same_at Pc.inside (x := .acquire b write) (by rw [hpc]; rfl)) q).symm.trans hq

/-- A process at the lock goes in. -/
theorem acquire (hfree : s.lock = none) (hcall : x.call = (s.pc p).call)
    (hreq : x.request = (s.pc p).request) (hbuf : x.buf = (s.pc p).buf) (hbump : ∀ c, x ≠ .bump c) :
    Inv { s with lock := some (.proc p), pc := update s.pc p x } := by
  refine h.move s.asleep hcall hreq (fun b e => h.held p b (hbuf.symm.trans e)) (fun q hq => ?_) hbump
  by_cases e : q = p
  · rw [e]
  · cases hfree.symm.trans (h.lock q (by simpa [e] using hq))

theorem only_inside (hp : (s.pc p).inside = true) (hq : (s.pc q).inside = true) : q = p := by
  cases (h.lock p hp).symm.trans (h.lock q hq)
  rfl

/-- The process inside leaves the lock and goes to sleep. -/
theorem sleep (chan : Chan n) (hin : (s.pc p).inside = true) (hout : x.inside = false)
    (hcall : x.call = (s.pc p).call) (hreq : x.request = (s.pc p).request) (hbuf : x.buf = (s.pc p).buf)
    (hbump : ∀ c, x ≠ .bump c) : Keeps (sleep p chan x) s := by
  unfold Keeps Virtio.sleep
  rw [wp_modify]
  refine h.move _ hcall hreq (fun b e => h.held p b (hbuf.symm.trans e)) (fun q hq => ?_) hbump
  by_cases e : q = p
  · simp [e, hout] at hq
  · exact absurd (h.only_inside hin (by simpa [e] using hq)) e

/-- A process inside moves on with its call. -/
theorem places (hcall : x.call = (s.pc p).call) (hin : x.inside = (s.pc p).inside)
    (hbuf : x.buf = (s.pc p).buf) :
    Owns (fun q => (update s.pc p x q).chain) s.disk.free ∧
    (∀ q, (update s.pc p x q).inside = true → s.lock = some (.proc q)) ∧
    (∀ q b, (update s.pc p x q).buf = some b → s.held b = some q) ∧
    ∀ q c, (update s.pc p x q).call = some c → Formed s.disk s.buf c := by
  have hchain : x.chain = (s.pc p).chain := by unfold Pc.chain; rw [hcall]
  rw [same_at Pc.chain hchain]
  exact ⟨h.owns, fun q hq => h.lock q (congrFun (same_at Pc.inside hin) q ▸ hq),
    fun q b hq => h.held q b (congrFun (same_at Pc.buf hbuf) q ▸ hq),
    fun q c hq => h.forms q c (congrFun (same_at Pc.call hcall) q ▸ hq)⟩

/-- Descriptors in no chain may change. -/
theorem frees (hf : Frees (fun i => ∃ q, i ∈ (s.pc q).chain) s s')
    (ho : Owns (fun q => (s.pc q).chain) s'.disk.free) : Inv s' := by
  obtain ⟨desc, free, asleep, rfl, hkeep⟩ := hf
  refine { h with owns := ho, forms := fun q c hq => ?_ }
  have hchain := Pc.chain_of_call hq
  exact (h.forms q c hq).congr (fun i hi => hkeep i ⟨q, by rw [hchain]; exact hi⟩) rfl rfl
    fun hdisk => ⟨hdisk, rfl⟩

end Inv

theorem exec_inv {f : M m n D Unit} (h : Keeps f s) : Inv (exec f s) := by
  obtain ⟨_, s', hrun, hs'⟩ := h.returns
  unfold exec
  rw [hrun]
  exact hs'

/-! ## The steps of a call -/

theorem getElem?_concat {xs : List α} {x y : α} {k : Nat} (h : (xs ++ [x])[k]? = some y) :
    xs[k]? = some y ∨ k = xs.length ∧ y = x := by
  rcases Nat.lt_trichotomy k xs.length with hlt | rfl | hgt
  · rw [List.getElem?_append_left hlt] at h
    exact .inl h
  · rw [List.getElem?_concat_length] at h
    exact .inr ⟨rfl, (Option.some.inj h).symm⟩
  · rw [List.getElem?_eq_none (by simp; omega)] at h
    cases h

section Steps
variable {s : Sys m n D} (h : Inv s) {p : Fin m} {c : Call n}
include h

/-- The state after `format`. -/
theorem format_inv {desc : Nat → Desc n} {free : Nat → Bool} (asleep : Fin m → Option (Chan n))
    (hpc : s.pc p = .alloc c.b c.write) (hkeep : ∀ i, (∃ q, i ∈ (s.pc q).chain) → desc i = s.disk.desc i)
    (ho : Owns (update (fun q => (s.pc q).chain) p c.chain) free) :
    Inv { s with
      disk := { s.disk with
        free := free
        ops := update s.disk.ops c.idx0 (header s c)
        desc := update (update (update desc c.idx0 (desc0 c)) c.idx1 (desc1 c)) c.idx2 (desc2 c)
        info := update s.disk.info c.idx0 ⟨some c.b, 0xff⟩ }
      buf := update s.buf c.b { s.buf c.b with disk := true }
      asleep := asleep
      pc := update s.pc p (.ring c) } := by
  have hreq : (s.pc p).request = none := by rw [hpc]; rfl
  obtain ⟨h01, h02, h12⟩ : c.idx0 ≠ c.idx1 ∧ c.idx0 ≠ c.idx2 ∧ c.idx1 ≠ c.idx2 := by
    simpa [Call.chain, and_assoc] using ho.nodup p
  -- the others have other descriptors and other buffers
  have hother : ∀ q c', q ≠ p → (s.pc q).call = some c' → c'.b ≠ c.b ∧ ∀ i ∈ c'.chain, i ∉ c.chain := by
    intro q c' hq hc'
    refine ⟨fun e => hq (h.buf_inj (Pc.buf_of_call hc') (by rw [hpc, e]; rfl)), fun i hi hi' => hq ?_⟩
    exact ho.disjoint (i := i) (by simpa [hq, Pc.chain_of_call hc'] using hi) (by simpa using hi')
  have hhead : ∀ q c', q ≠ p → (s.pc q).call = some c' → c'.idx0 ≠ c.idx0 := fun q c' hq hc' e =>
    (hother q c' hq hc').2 _ List.mem_cons_self (e ▸ List.mem_cons_self)
  have hwaits : ∀ {q c' k}, (s.pc q).request = some (c', k) → q ≠ p := by
    rintro q c' k hq rfl
    simp [hreq] at hq
  refine ⟨h.alive, (update_at Pc.chain ..).symm ▸ ho, fun q hq => ?_, fun q b' hq => ?_,
    fun q c' hq => ?_, ?_, h.avails, h.useds, fun q c' hq => ?_⟩
  · by_cases e : q = p
    · exact e ▸ h.lock p (by rw [hpc]; rfl)
    · exact h.lock q (by simpa [e] using hq)
  · by_cases e : q = p
    · exact h.held q b' (by simpa [e, hpc, Pc.buf] using hq)
    · exact h.held q b' (by simpa [e] using hq)
  · by_cases e : q = p
    · obtain rfl : c = c' := by simpa [e, Pc.call] using hq
      exact ⟨by simp [h01, h02], by simp [h12], by simp, by simp [header, Buf.sector], by simp⟩
    · have hq : (s.pc q).call = some c' := by simpa [e] using hq
      obtain ⟨hb, hdis⟩ := hother q c' e hq
      refine (h.forms q c' hq).congr (fun i hi => ?_) ?_ ?_ ?_
      · have hi' := hdis i hi
        simp only [Call.chain, List.mem_cons, List.not_mem_nil, or_false, not_or] at hi'
        simpa [hi'] using hkeep i ⟨q, by rwa [Pc.chain_of_call hq]⟩
      all_goals simp [hb, hhead q c' e hq]
  · show Reqs (fun q => (update s.pc p (.ring c) q).call)
      (fun q => (update s.pc p (.ring c) q).request) _ _ _ _
    rw [same_at Pc.request (x := .ring c) hreq.symm]
    refine ⟨fun q c' hq hr => ?_, h.reqs.number, fun q c' k hq => ?_, h.reqs.waiter, fun k c' hk hst => ?_⟩
    · by_cases e : q = p
      · obtain rfl : c = c' := by simpa [e, Pc.call] using hq
        simp
      · have hq : (s.pc q).call = some c' := by simpa [e] using hq
        simpa [(hother q c' e hq).1] using h.reqs.unsent q c' hq hr
    · simpa [(hother q c' (hwaits hq) (Pc.call_of_request hq)).1] using h.reqs.flag q c' k hq
    · obtain ⟨q, hq⟩ := h.reqs.waiter k c' hk (by rcases hst with e | e | e <;> rw [e] <;> decide)
      simpa [hhead q c' (hwaits hq) (Pc.call_of_request hq)] using h.reqs.status k c' hk hst
  · by_cases e : q = p
    · simp [e] at hq
    · exact h.slot q c' (by simpa [e] using hq)

theorem alloc_inv {b : Fin n} {write : Bool} (hpc : s.pc p = .alloc b write) :
    Keeps (allocStep p b write) s := by
  have hnil : (s.pc p).chain = [] := by rw [hpc]; rfl
  unfold allocStep
  refine (alloc3Desc_spec h.owns hnil).bind fun r t ht => ?_
  cases r with
  | none =>
    obtain ⟨hf, ho⟩ := ht
    have hpct : t.pc p = .alloc b write := by
      obtain ⟨_, _, _, rfl, _⟩ := hf
      exact hpc
    exact (h.frees hf ho).sleep _ (by rw [hpct]; rfl) rfl (by rw [hpct]; rfl)
      (by rw [hpct]; rfl) (by rw [hpct]; rfl) (by simp)
  | some r =>
    obtain ⟨i0, i1, i2⟩ := r
    obtain ⟨⟨desc, free, asleep, rfl, hkeep⟩, ho⟩ := ht
    unfold format goto
    rw [wp_bind, wp_modify, wp_modify]
    exact format_inv h (c := ⟨b, write, i0, i1, i2⟩) asleep hpc hkeep ho

theorem ring_inv (hpc : s.pc p = .ring c) : Keeps (ringStep p c) s := by
  have hin : (s.pc p).inside = true := by rw [hpc]; rfl
  have hcall : (s.pc p).call = some c := by rw [hpc]; rfl
  have hroom := h.avail_room hcall (by rw [hpc]; rfl)
  unfold Keeps ringStep goto
  rw [wp_bind, wp_modify, wp_modify]
  obtain ⟨howns, hlock, hheld, hforms⟩ := h.places (x := .bump c) hcall.symm hin.symm (by rw [hpc]; rfl)
  refine ⟨h.alive, howns, hlock, hheld, fun q c' hq => ?_, ?_, ?_, h.useds, fun q c' hq => ?_⟩
  · exact { hforms q c' hq with }
  · show Reqs (fun q => (update s.pc p (.bump c) q).call)
      (fun q => (update s.pc p (.bump c) q).request) _ _ _ _
    rw [same_at Pc.call (x := .bump c) hcall.symm, same_at Pc.request (by rw [hpc]; rfl)]
    exact h.reqs
  · refine { h.avails with ring := ?_ }
    have hw := h.avails.ring.write (by rwa [List.length_map]) c.idx0
    simpa only [h.avails.idx, ofNat_toNat_mod, List.length_map] using hw
  · have hq : update s.pc p (.bump c) q = .bump c' := hq
    obtain rfl : q = p := by
      by_contra e
      rw [update_of_ne e] at hq
      exact e (h.only_inside hin (by rw [hq]; rfl))
    rw [update_self] at hq
    cases hq
    exact update_self _ _ _

theorem bump_inv (hpc : s.pc p = .bump c) : Keeps (bumpStep p c) s := by
  have hin : (s.pc p).inside = true := by rw [hpc]; rfl
  have hcall : (s.pc p).call = some c := by rw [hpc]; rfl
  have hreq : (s.pc p).request = none := by rw [hpc]; rfl
  have hroom := h.avail_room hcall hreq
  have hle : s.dev.took ≤ s.sent.length := by simpa using h.avails.ring.le
  have hnew : s.stage s.sent.length = .avail := (h.avails.untaken _).2 hle
  unfold Keeps bumpStep goto
  rw [wp_bind, wp_get, wp_bind, wp_modify, wp_modify]
  set x : Pc n := .wait c s.sent.length with hx
  obtain ⟨howns, hlock, hheld, hforms⟩ := h.places (x := x) hcall.symm hin.symm (by rw [hpc]; rfl)
  refine ⟨h.alive, howns, hlock, hheld, fun q c' hq => ?_, ?_, ?_, h.useds, fun q c' hq => ?_⟩
  · exact { hforms q c' hq with }
  · -- request number `sent.length` is the new one, and `p` waits for it
    show Reqs (fun q => (update s.pc p x q).call) (fun q => (update s.pc p x q).request) _ _ _ _
    rw [same_at Pc.call (x := x) hcall.symm]
    refine ⟨fun q c' hq hr => ?_, fun q c' k hq => ?_, fun q c' k hq => ?_, fun k c' hk hst => ?_,
      fun k c' hk hst => ?_⟩
    · have e : q ≠ p := fun e => by simp [e, hx, Pc.request] at hr
      exact h.reqs.unsent q c' hq (by simpa [e] using hr)
    · by_cases e : q = p
      · simp only [e, update_self, hx, Pc.request, Option.some.injEq, Prod.mk.injEq] at hq
        simp [← hq.1, ← hq.2]
      · have hk := h.reqs.number q c' k (by simpa [e] using hq)
        rwa [List.getElem?_append_left (List.getElem?_eq_some_iff.1 hk).1]
    · by_cases e : q = p
      · simp only [e, update_self, hx, Pc.request, Option.some.injEq, Prod.mk.injEq] at hq
        simp [← hq.1, ← hq.2, hnew, h.reqs.unsent p c hcall hreq]
      · exact h.reqs.flag q c' k (by simpa [e] using hq)
    · rcases getElem?_concat hk with hk | ⟨rfl, rfl⟩
      · obtain ⟨q, hq⟩ := h.reqs.waiter k c' hk hst
        have e : q ≠ p := fun e => by simp [e, hreq] at hq
        exact ⟨q, by simpa [e] using hq⟩
      · exact ⟨p, by simp [hx, Pc.request]⟩
    · rcases getElem?_concat hk with hk | ⟨rfl, rfl⟩
      · exact h.reqs.status k c' hk hst
      · simp [hnew] at hst
  · have hcommit := h.avails.ring.commit (by rwa [List.length_map])
    have hslot := h.slot p c hpc
    rw [h.avails.idx, ofNat_toNat_mod] at hslot
    rw [List.length_map, hslot] at hcommit
    refine ⟨by simpa using hcommit, ?_, h.avails.next, h.avails.untaken, fun k c' hk hc' => ?_⟩
    · simp [h.avails.idx, UInt16.ofNat_add]
    · exact h.avails.head k c' hk (by rwa [List.getElem?_append_left (Nat.lt_of_lt_of_le hk hle)] at hc')
  · by_cases e : q = p
    · simp [e, hx] at hq
    · have hq : s.pc q = .bump c' := by simpa [e] using hq
      exact absurd (h.only_inside hin (by rw [hq]; rfl)) e

/-- A call whose request is handled gives back its descriptors. -/
theorem wait_inv {k : Nat} (hpc : s.pc p = .wait c k) : Keeps (waitStep p c k) s := by
  have hin : (s.pc p).inside = true := by rw [hpc]; rfl
  have hcall : (s.pc p).call = some c := by rw [hpc]; rfl
  have hreq : (s.pc p).request = some (c, k) := by rw [hpc]; rfl
  unfold Keeps waitStep
  rw [wp_bind, wp_get]
  split
  · exact h.sleep _ hin rfl hcall.symm hreq.symm (by rw [hpc]; rfl) (by simp)
  · rename_i hdisk
    have hst : s.stage k = .handled := by
      by_contra hst
      exact hdisk ((h.reqs.flag p c k hreq).2 hst)
    have hform := h.forms p c hcall
    have hchained : Chained s.disk.desc c.chain := by
      simp only [Call.chain, Chained, hform.desc0, hform.desc1, hform.desc2, desc0, desc1, desc2, true_and]
      cases c.write <;> decide
    rw [wp_bind, wp_modify]
    set t0 : Sys m n D :=
      { s with disk := { s.disk with
          info := update s.disk.info c.idx0 { s.disk.info c.idx0 with b := none } } } with ht0
    have ho0 : Owns (fun q => (s.pc q).chain) t0.disk.free := h.owns
    refine (freeChain_spec (s := t0) ho0 (Pc.chain_of_call hcall) hchained
      (show 2 < NUM + 1 by decide)).bind fun _ t ht => ?_
    obtain ⟨⟨desc, free, asleep, rfl, hkeep⟩, ho⟩ := ht
    rw [wp_modify]
    refine ⟨h.alive, (update_at Pc.chain ..).symm ▸ ho, fun q hq => ?_,
      fun q b hq => h.held q b (of_idle Pc.buf rfl hq).2, fun q c' hq => ?_, ?_, h.avails,
      h.useds, fun q c' hq => ?_⟩
    · have e : q ≠ p := fun e => by simp [e, Pc.inside] at hq
      exact absurd (h.only_inside hin (by simpa [e] using hq)) e
    · obtain ⟨e, hq⟩ := of_idle Pc.call rfl hq
      refine (h.forms q c' hq).congr (fun i hi => hkeep i fun hi' => e (h.eq_of_mem hq hcall hi hi')) rfl rfl
        fun hd => ⟨hd, ?_⟩
      have h0 : c'.idx0 ≠ c.idx0 := fun e0 =>
        e (h.eq_of_mem hq hcall (i := c'.idx0) List.mem_cons_self (e0 ▸ List.mem_cons_self))
      simp [ht0, h0]
    · refine ⟨fun q c' hq hr => ?_, fun q c' k' hq => h.reqs.number q c' k' (of_idle Pc.request rfl hq).2,
        fun q c' k' hq => h.reqs.flag q c' k' (of_idle Pc.request rfl hq).2, fun k' c' hk hst' => ?_,
        fun k' c' hk hst' => ?_⟩
      · obtain ⟨e, hq⟩ := of_idle Pc.call rfl hq
        exact h.reqs.unsent q c' hq (by simpa [e] using hr)
      · obtain ⟨q, hq⟩ := h.reqs.waiter k' c' hk hst'
        have e : q ≠ p := by
          rintro rfl
          cases hreq.symm.trans hq
          exact hst' hst
        exact ⟨q, by simpa [e] using hq⟩
      · have hstat := h.reqs.status k' c' hk hst'
        by_cases e : c'.idx0 = c.idx0
        · simpa [ht0, e] using hstat
        · simpa [ht0, e] using hstat
    · by_cases e : q = p
      · simp [e] at hq
      · exact h.slot q c' (by simpa [e] using hq)

/-- What `virtio_disk_intr` finds in the used ring. -/
theorem next_used (hne : s.disk.usedIdx ≠ s.disk.used.idx) : ∃ p c k, s.posted[s.seen]? = some k ∧
    (s.pc p).request = some (c, k) ∧ s.stage k = .used ∧ nextId s = c.idx0 ∧
    (s.disk.info c.idx0).b = some c.b ∧ (s.disk.info c.idx0).status = 0 := by
  have hlt : s.seen < s.posted.length := by
    have hle := h.useds.ring.le
    rw [List.length_map] at hle
    refine Nat.lt_of_le_of_ne hle fun e => hne ?_
    rw [h.useds.last, h.useds.idx, e]
  have hk := List.getElem?_eq_getElem hlt
  have hst := h.useds.counted _ _ hk
  rw [if_neg (Nat.lt_irrefl _)] at hst
  obtain ⟨c, hc, hhead⟩ := h.sent_of_taken (k := s.posted[s.seen]) (by rw [hst]; decide)
  have hopen : s.stage s.posted[s.seen] ≠ .handled := by rw [hst]; decide
  obtain ⟨p, hp⟩ := h.reqs.waiter _ c hc hopen
  refine ⟨p, c, _, hk, hp, hst, ?_, ?_, h.reqs.status _ c hc (.inr (.inr hst))⟩
  · have hcell := h.useds.ring.cell s.seen (by rw [List.length_map]; exact hlt) (Nat.le_refl _)
    unfold nextId
    rw [h.useds.last, ofNat_toNat_mod, hcell, List.getElem_map]
    exact hhead
  · exact (h.forms p c (Pc.call_of_request hp)).info ((h.reqs.flag p c _ hp).2 hopen)

theorem posted_stage {l : Nat} (hl : l ∈ s.posted) : s.stage l = .used ∨ s.stage l = .handled := by
  obtain ⟨j, hj⟩ := List.getElem?_of_mem hl
  rw [h.useds.counted j l hj]
  split
  · exact .inr rfl
  · exact .inl rfl

theorem intr_inv (hne : s.disk.usedIdx ≠ s.disk.used.idx) : Keeps intrPass s := by
  obtain ⟨p, c, k, hk, hp, hst, hid, hb, hstat⟩ := next_used h hne
  have hcall := Pc.call_of_request hp
  have hlt : s.seen < s.posted.length := (List.getElem?_eq_some_iff.1 hk).1
  unfold Keeps intrPass
  rw [wp_bind, wp_get, hid, if_neg (not_not.2 hstat), hb]
  rw [wp_bind, wp_modify]
  unfold wakeup
  rw [wp_bind, wp_modify, wp_modify]
  have hstage : (fun l => if s.posted[s.seen]? = some l then .handled else s.stage l) =
      update s.stage k .handled := by
    funext l
    simp [hk, Function.update_apply, eq_comm]
  rw [hstage]
  -- the others wait for other buffers and other requests
  have hbuf : ∀ q c', q ≠ p → (s.pc q).call = some c' → c'.b ≠ c.b := fun q c' hq hc' e =>
    hq (h.buf_inj (Pc.buf_of_call hc') (e ▸ Pc.buf_of_call hcall))
  have hnum : ∀ q c' k', q ≠ p → (s.pc q).request = some (c', k') → k' ≠ k := by
    rintro q c' k' hq hc' rfl
    have hsame := h.reqs.number q c' k' hc'
    rw [h.reqs.number p c k' hp] at hsame
    cases hsame
    exact hq (h.eq_of_mem (Pc.call_of_request hc') hcall (i := c.idx0) List.mem_cons_self List.mem_cons_self)
  refine ⟨h.alive, h.owns, h.lock, h.held, fun q c' hq => ?_, ?_, ?_, ?_, h.slot⟩
  · refine (h.forms q c' hq).congr (fun _ _ => rfl) rfl ?_ fun hdisk => ⟨?_, rfl⟩ <;> by_cases e : c'.b = c.b
    · simp [e]
    · simp [e]
    · simp [e] at hdisk
    · simpa [e] using hdisk
  · refine ⟨fun q c' hq hr => ?_, h.reqs.number, fun q c' k' hq => ?_, fun k' c' hk' hst' => ?_,
      fun k' c' hk' hst' => ?_⟩
    · have e : q ≠ p := by
        rintro rfl
        cases hp.symm.trans hr
      simpa [hbuf q c' e hq] using h.reqs.unsent q c' hq hr
    · by_cases e : q = p
      · subst e
        cases hp.symm.trans hq
        simp
      · simpa [hbuf q c' e (Pc.call_of_request hq), hnum q c' k' e hq] using h.reqs.flag q c' k' hq
    · have e : k' ≠ k := fun e => by simp [e] at hst'
      exact h.reqs.waiter k' c' hk' (by simpa [e] using hst')
    · have e : k' ≠ k := fun e => by simp [e] at hst'
      exact h.reqs.status k' c' hk' (by simpa [e] using hst')
  · refine { h.avails with untaken := fun k' => ?_ }
    by_cases e : k' = k
    · simp [e, ← h.avails.untaken k, hst]
    · simpa [e] using h.avails.untaken k'
  · refine ⟨h.useds.ring.pop (by rwa [List.length_map]), h.useds.idx, ?_, h.useds.nodup, fun j k' hj => ?_,
      fun k' hst' => ?_, fun k' => ?_, h.useds.slot⟩
    · simp [h.useds.last, UInt16.ofNat_add]
    · have hold := h.useds.counted j k' hj
      -- `k` stands at place `seen` of `posted`, and only there
      have hjs : j = s.seen ↔ k' = k := by
        refine ⟨fun e => ?_, fun e => ?_⟩
        · rw [e, hk] at hj
          exact (Option.some.inj hj).symm
        · exact (List.getElem?_inj (List.getElem?_eq_some_iff.1 hj).1 h.useds.nodup).1 (by rw [hj, hk, e])
      by_cases e : k' = k
      · simp [e, hjs.2 e]
      · simp only [ne_eq, e, not_false_eq_true, update_of_ne, hold]
        congr 1
        simp only [eq_iff_iff]
        omega
    · by_cases e : k' = k
      · rw [e]
        exact List.mem_of_getElem? hk
      · exact h.useds.mem k' (by simpa [e] using hst')
    · by_cases e : k' = k
      · simp [e, h.useds.posting k, hst]
      · simpa [e] using h.useds.posting k'

end Steps

/-! ## The device -/

section DeviceSteps
variable {s : Sys m n D} (h : Inv s) {k : Nat}
include h

variable {buf : Fin n → Buf D} {x : Stage} {c : Call n}

/-- A request moves on in the device, short of the used ring. -/
theorem Reqs.advance {info : Nat → Info n} (hk : s.stage k ≠ .handled)
    (hx : x ≠ .handled) (hbuf : ∀ b, (buf b).disk = (s.buf b).disk)
    (hinfo : ∀ l c, s.sent[l]? = some c → s.stage l ≠ .handled → l ≠ k →
      (info c.idx0).status = (s.disk.info c.idx0).status)
    (hself : ∀ c, s.sent[k]? = some c → x = .served ∨ x = .posting ∨ x = .used → (info c.idx0).status = 0) :
    Reqs (fun p => (s.pc p).call) (fun p => (s.pc p).request) s.sent (update s.stage k x) buf info := by
  have hstage : ∀ l, update s.stage k x l ≠ .handled ↔ s.stage l ≠ .handled := fun l => by
    by_cases e : l = k <;> simp [e, hx, hk]
  refine ⟨fun p c hp hr => ?_, h.reqs.number, fun p c l hp => ?_, fun l c hl hst => ?_, fun l c hl hst => ?_⟩
  · rw [hbuf]
    exact h.reqs.unsent p c hp hr
  · rw [hbuf, hstage l]
    exact h.reqs.flag p c l hp
  · exact h.reqs.waiter l c hl ((hstage l).1 hst)
  · by_cases e : l = k
    · rw [e, update_self] at hst
      rw [e] at hl
      exact hself c hl hst
    · rw [update_of_ne e] at hst
      rw [hinfo l c hl (by rcases hst with e | e | e <;> rw [e] <;> decide) e]
      exact h.reqs.status l c hl hst

theorem Avails.advance {dev : Device D} (hk : s.stage k ≠ .avail) (hx : x ≠ .avail)
    (hdev : dev.took = s.dev.took ∧ dev.next = s.dev.next ∧ dev.head = s.dev.head) :
    Avails s.disk.avail dev s.sent (update s.stage k x) := by
  obtain ⟨hring, hidx, hnext, huntaken, hhead⟩ := h.avails
  rw [← hdev.1, ← hdev.2.1, ← hdev.2.2] at *
  refine ⟨hring, hidx, hnext, fun l => ?_, hhead⟩
  by_cases e : l = k
  · simp [e, hx, ← huntaken k, hk]
  · simpa [e] using huntaken l

/-- The used ring, for a request on its way to it. -/
theorem Useds.advance (hk : s.stage k ≠ .used ∧ s.stage k ≠ .handled) (hx : x ≠ .used ∧ x ≠ .handled) :
    k ∉ s.posted ∧
    (∀ j l, s.posted[j]? = some l → update s.stage k x l = if j < s.seen then .handled else .used) ∧
    ∀ l, update s.stage k x l = .used ∨ update s.stage k x l = .handled → l ∈ s.posted := by
  have hnew : k ∉ s.posted := fun hl => (posted_stage h hl).elim hk.1 hk.2
  refine ⟨hnew, fun j l hj => ?_, fun l hl => ?_⟩
  · have e : l ≠ k := fun e => hnew (e ▸ List.mem_of_getElem? hj)
    rw [update_of_ne e, h.useds.counted j l hj]
  · have e : l ≠ k := fun e => by simp [e, hx] at hl
    exact h.useds.mem l (by simpa [e] using hl)

theorem take_inv (hne : s.dev.next ≠ s.disk.avail.idx) : Keeps take s := by
  have hlt : s.dev.took < s.sent.length := by
    have hle := h.avails.ring.le
    rw [List.length_map] at hle
    refine Nat.lt_of_le_of_ne hle fun e => hne ?_
    rw [h.avails.next, h.avails.idx, e]
  have hst : s.stage s.dev.took = .avail := (h.avails.untaken _).2 (Nat.le_refl _)
  have hhead : s.disk.avail.ring (s.dev.next.toNat % NUM) = s.sent[s.dev.took].idx0 := by
    rw [h.avails.next, ofNat_toNat_mod,
      h.avails.ring.cell s.dev.took (by rwa [List.length_map]) (Nat.le_refl _), List.getElem_map]
  obtain ⟨hnew, hcounted, hmem⟩ := Useds.advance h (k := s.dev.took) (x := .taken) (by simp [hst]) (by simp)
  unfold Keeps take
  rw [wp_modify]
  refine { h with reqs := ?_, avails := ?_, useds := ?_ }
  · exact Reqs.advance h (by simp [hst]) (by simp) (fun _ => rfl) (fun _ _ _ _ _ => rfl)
      fun _ _ hx => by simp at hx
  · refine ⟨h.avails.ring.pop (by rwa [List.length_map]), h.avails.idx, ?_, fun l => ?_, fun l c hl hc => ?_⟩
    · simp [h.avails.next, UInt16.ofNat_add]
    · by_cases e : l = s.dev.took
      · simp [e]
      · have := h.avails.untaken l
        simp only [ne_eq, e, not_false_eq_true, update_of_ne, this]
        omega
    · by_cases e : l = s.dev.took
      · rw [e, List.getElem?_eq_getElem hlt] at hc
        cases hc
        simp [e, hhead]
      · have hl : l < s.dev.took + 1 := hl
        simpa [e] using h.avails.head l c (by omega) hc
  · refine ⟨?_, h.useds.idx, h.useds.last, h.useds.nodup, hcounted, hmem, fun l => ?_, fun l hl => ?_⟩
    · have hold : ∀ l ∈ s.posted,
        update s.dev.head s.dev.took (s.disk.avail.ring (s.dev.next.toNat % NUM)) l =
          s.dev.head l := fun l hl => update_of_ne (fun e : l = s.dev.took => hnew (e ▸ hl)) _ _
      simpa only [List.map_congr_left hold] using h.useds.ring
    · by_cases e : l = s.dev.took
      · simp [e, h.useds.posting, hst]
      · simpa [e] using h.useds.posting l
    · have e : l ≠ s.dev.took := by
        rintro rfl
        simp [(h.useds.posting _).1 hl] at hst
      simpa [e] using h.useds.slot l hl

theorem fetch_formed (hp : (s.pc p).call = some c) :
    fetch s.disk c.idx0 = some ⟨s.disk.ops c.idx0, c.b, c.idx0⟩ := by
  have hf := h.forms p c hp
  unfold fetch
  simp only [hf.desc0, desc0, hf.desc1, desc1, hf.desc2, desc2, hf.ops]
  cases c.write <;> simp [VIRTIO_BLK_T_IN, VIRTIO_BLK_T_OUT]

/-- A request that is served, whatever the device has transferred. -/
theorem served_inv (platter : UInt64 → D) (hk : s.stage k = .taken)
    (hc : s.sent[k]? = some c)
    (hbuf : ∀ b, (buf b).disk = (s.buf b).disk ∧ (buf b).blockno = (s.buf b).blockno) :
    Inv { s with
      disk := { s.disk with info := update s.disk.info c.idx0 { s.disk.info c.idx0 with status := 0 } }
      buf := buf
      dev := { s.dev with platter := platter }
      stage := update s.stage k .served } := by
  have hopen : s.stage k ≠ .handled := by simp [hk]
  obtain ⟨-, hcounted, hmem⟩ := Useds.advance h (k := k) (x := .served) (by simp [hk]) (by simp)
  refine ⟨h.alive, h.owns, h.lock, h.held, fun q c' hq => ?_, ?_, Avails.advance h (by simp [hk]) (by simp)
    ⟨rfl, rfl, rfl⟩, ?_, h.slot⟩
  · refine (h.forms q c' hq).congr (fun _ _ => rfl) rfl (hbuf _).2 fun hdisk => ⟨(hbuf _).1 ▸ hdisk, ?_⟩
    by_cases e : c'.idx0 = c.idx0 <;> simp [e]
  · refine Reqs.advance h hopen (by simp) (fun b => (hbuf b).1) (fun l c' hl hst e => ?_) fun c' hc' _ => ?_
    · have e0 : c'.idx0 ≠ c.idx0 := fun e0 => e (h.open_inj hl hc hst hopen e0)
      simp [e0]
    · cases hc.symm.trans hc'
      simp
  · obtain ⟨hring, hidx, hlast, hnodup, -, -, hposting, hslot⟩ := h.useds
    refine ⟨hring, hidx, hlast, hnodup, hcounted, hmem, fun l => ?_, hslot⟩
    by_cases e : l = k
    · simp [e, hposting, hk]
    · simpa [e] using hposting l

theorem serve_inv (hk : s.stage k = .taken) : Keeps (serve k) s := by
  obtain ⟨c, hc, hhead⟩ := h.sent_of_taken (k := k) (by simp [hk])
  obtain ⟨p, hp⟩ := h.reqs.waiter k c hc (by simp [hk])
  unfold Keeps serve
  rw [wp_bind, wp_get, hhead, fetch_formed h (Pc.call_of_request hp)]
  dsimp only
  split
  · rw [wp_bind, wp_modify, wp_modify]
    exact served_inv h _ hk hc fun _ => ⟨rfl, rfl⟩
  · rw [wp_bind, wp_modify, wp_modify]
    refine served_inv h s.dev.platter hk hc fun b => ?_
    by_cases e : b = c.b <;> simp [e]

theorem post_inv (hk : s.stage k = .served) (hnone : s.dev.posting = none) :
    Keeps (post k) s := by
  have hroom := h.used_room (.inl hk)
  have hu := h.useds
  obtain ⟨-, hcounted, hmem⟩ := Useds.advance h (k := k) (x := .posting) (by simp [hk]) (by simp)
  unfold Keeps post
  rw [wp_modify]
  refine ⟨h.alive, h.owns, h.lock, h.held, fun q c' hq => ?_, ?_, Avails.advance h (by simp [hk]) (by simp)
    ⟨rfl, rfl, rfl⟩, ?_, h.slot⟩
  · exact { h.forms q c' hq with }
  · exact Reqs.advance h (by simp [hk]) (by simp) (fun b => rfl) (fun l c' _ _ _ => rfl) fun c' hc' _ =>
      h.reqs.status k c' hc' (.inl hk)
  · refine ⟨?_, hu.idx, hu.last, hu.nodup, hcounted, hmem, fun l => ?_, fun l hl => ?_⟩
    · have hw := hu.ring.write (by rwa [List.length_map]) (s.dev.head k)
      simpa only [hu.idx, ofNat_toNat_mod, List.length_map] using hw
    · by_cases e : l = k
      · simp [e]
      · simpa [e, Ne.symm e, hnone] using hu.posting l
    · cases hl
      exact update_self _ _ _

theorem publish_inv (hk : s.dev.posting = some k) : Keeps (publish k) s := by
  have hu := h.useds
  have hst := (hu.posting k).1 hk
  have hroom := h.used_room (.inr hst)
  have hnew : k ∉ s.posted := fun hl => by simpa [hst] using posted_stage h hl
  unfold Keeps publish
  rw [wp_modify]
  refine ⟨h.alive, h.owns, h.lock, h.held, fun q c' hq => ?_, ?_, Avails.advance h (by simp [hst]) (by simp)
    ⟨rfl, rfl, rfl⟩, ?_, h.slot⟩
  · exact { h.forms q c' hq with }
  · exact Reqs.advance h (by simp [hst]) (by simp) (fun b => rfl) (fun l c' _ _ _ => rfl) fun c' hc' _ =>
      h.reqs.status k c' hc' (.inr (.inl hst))
  · have hcommit := hu.ring.commit (by rwa [List.length_map])
    have hslot := hu.slot k hk
    rw [hu.idx, ofNat_toNat_mod] at hslot
    rw [List.length_map, hslot] at hcommit
    refine ⟨by simpa using hcommit, ?_, hu.last, ?_, fun j l hj => ?_, fun l hst' => ?_,
      fun l => ?_, fun l hl => ?_⟩
    · simp [hu.idx, UInt16.ofNat_add]
    · refine List.nodup_append.2 ⟨hu.nodup, List.pairwise_singleton _ k, fun a ha b hb e => hnew ?_⟩
      rwa [← List.mem_singleton.1 hb, ← e]
    · rcases getElem?_concat hj with hj | ⟨rfl, rfl⟩
      · have e : l ≠ k := fun e => hnew (e ▸ List.mem_of_getElem? hj)
        simpa [e] using hu.counted j l hj
      · have hle : s.seen ≤ s.posted.length := by simpa using hu.ring.le
        simp [Nat.not_lt.2 hle]
    · by_cases e : l = k
      · simp [e]
      · exact List.mem_append_left _ (hu.mem l (by simpa [e] using hst'))
    · by_cases e : l = k
      · simp [e]
      · simpa [e, Ne.symm e, hk] using hu.posting l
    · cases hl

end DeviceSteps

/-! ## Whole runs -/

theorem go_inv (h : Inv s) (hs : go s p = some s') : Inv s' := by
  unfold go acquire at hs
  cases hpc : s.pc p <;> simp only [hpc, Option.ite_none_right_eq_some, Option.some.injEq, reduceCtorEq] at hs
  case acquire b write =>
    obtain ⟨⟨hfree, -⟩, rfl⟩ := hs
    exact h.acquire hfree (by rw [hpc]; rfl) (by rw [hpc]; rfl) (by rw [hpc]; rfl) (by simp)
  case resume c k =>
    obtain ⟨⟨hfree, -⟩, rfl⟩ := hs
    exact h.acquire hfree (by rw [hpc]; rfl) (by rw [hpc]; rfl) (by rw [hpc]; rfl) (by simp)
  all_goals subst hs
  case alloc b write => exact exec_inv (alloc_inv h hpc)
  case ring c => exact exec_inv (ring_inv h hpc)
  case bump c => exact exec_inv (bump_inv h hpc)
  case wait c k => exact exec_inv (wait_inv h hpc)

theorem inv_step {l : Lbl m n D} (h : Inv s) (hs : step s l = some s') : Inv s' := by
  unfold step at hs
  rw [if_pos h.alive] at hs
  cases l <;> simp only [Option.ite_none_right_eq_some, Option.some.injEq] at hs
  case acquiresleep p b =>
    obtain ⟨hc, rfl⟩ := hs
    refine { h with held := fun q b' hq => ?_ }
    have hq' := h.held q b' hq
    have e : b' ≠ b := fun e => by simp [e, hc.2] at hq'
    simpa [e] using hq'
  case releasesleep p b =>
    obtain ⟨hc, rfl⟩ := hs
    refine { h with held := fun q b' hq => ?_ }
    have hq' := h.held q b' hq
    have e : b' ≠ b := by
      rintro rfl
      cases hc.2.symm.trans hq'
      simp [hc.1, Pc.buf] at hq
    simpa [e] using hq'
  case modify p b blockno d =>
    obtain ⟨hc, rfl⟩ := hs
    -- the caller is in no call, so no request is for this buffer
    have hne : ∀ {q : Fin m} {c : Call n}, (s.pc q).call = some c → c.b ≠ b := by
      rintro q c hq rfl
      have hb := Pc.buf_of_call hq
      cases hc.2.symm.trans (h.held q _ hb)
      simp [hc.1, Pc.buf] at hb
    refine { h with forms := fun q c hq => ?_, reqs := ?_ }
    · exact (h.forms q c hq).congr (fun _ _ => rfl) rfl (by simp [hne hq]) (by simp [hne hq])
    · refine { h.reqs with unsent := fun q c hq hr => ?_, flag := fun q c k hq => ?_ }
      · simpa [hne hq] using h.reqs.unsent q c hq hr
      · simpa [hne (Pc.call_of_request hq)] using h.reqs.flag q c k hq
  case rw p b write =>
    obtain ⟨hc, rfl⟩ := hs
    exact h.call hc.1 hc.2
  case go p => exact go_inv h hs
  case kill p =>
    subst hs
    exact { h with }
  case intr =>
    obtain ⟨hc, rfl⟩ := hs
    refine { h with lock := fun p hp => ?_ }
    cases hc.symm.trans (h.lock p hp)
  case intrGo =>
    obtain ⟨hc, rfl⟩ := hs
    unfold intrGo
    split
    · refine { h with lock := fun p hp => ?_ }
      cases hc.symm.trans (h.lock p hp)
    · rename_i hne
      exact exec_inv (intr_inv h hne)
  case take => exact hs.2 ▸ exec_inv (take_inv h hs.1)
  case serve k => exact hs.2 ▸ exec_inv (serve_inv h hs.1)
  case post k => exact hs.2 ▸ exec_inv (post_inv h hs.1.1 hs.1.2)
  case publish =>
    split at hs
    · cases hs
    · rename_i k hk
      cases hs
      exact exec_inv (publish_inv h hk)

theorem Init.inv (h : Init s) : Inv s := by
  have hnone : ∀ p, (s.pc p).call = none ∧ (s.pc p).request = none ∧ (s.pc p).chain = [] ∧
    (s.pc p).buf = none ∧
      (s.pc p).inside = false := by
    intro p
    rw [h.pc p]
    exact ⟨rfl, rfl, rfl, rfl, rfl⟩
  refine ⟨h.panic, ⟨⟨?_, ?_, ?_, fun _ r hr hf => ?_⟩, ?_⟩, ?_, ?_, ?_, ⟨?_, ?_, ?_, ?_, ?_⟩,
    ⟨?_, by simp [h.sent, h.avail], by simp [h.next, h.took], by simp [h.took, h.stage], by simp [h.took]⟩,
    ⟨?_, by simp [h.posted, h.used], by simp [h.usedIdx, h.seen], by simp [h.posted], by simp [h.posted],
      by simp [h.stage], by simp [h.posting, h.stage], by simp [h.posting]⟩, by simp [h.pc]⟩
  case refine_4 => simp [h.free r hr] at hf
  case refine_14 => simpa [h.sent, h.took] using Ring.empty _ _
  case refine_15 => simpa [h.posted, h.seen] using Ring.empty _ _
  all_goals simp [hnone, h.sent]

theorem inv_inductive : (lts m n D).Inductive Inv where
  init _ h := h.inv
  step _ _ _ h hs := inv_step h hs

/-- What the driver promises in a state. -/
structure Right (s : Sys m n D) : Prop where
  /-- the chains are pairwise disjoint, and exactly the other descriptors are free -/
  disjoint : ∀ p q i, i ∈ (s.pc p).chain → i ∈ (s.pc q).chain → p = q
  free : ∀ i, i < NUM → (s.disk.free i = true ↔ ∀ p, i ∉ (s.pc p).chain)
  /-- the entry of the used ring that is handled next heads the chain of a request that the device has
  completed, and `info` has its buffer -/
  handles : s.disk.usedIdx ≠ s.disk.used.idx → ∃ p c k, (s.pc p).request = some (c, k) ∧ k ∈ s.posted ∧
    nextId s = c.idx0 ∧ (s.disk.info (nextId s)).b = some c.b ∧ (s.disk.info (nextId s)).status = 0
  /-- a call waits for the request that it has sent -/
  own : ∀ p c k, (s.pc p).request = some (c, k) → s.sent[k]? = some c
  /-- the device finds the call's own command, buffer and status byte -/
  serves : ∀ k, s.stage k = .taken → ∃ p c, (s.pc p).request = some (c, k) ∧
    fetch s.disk (s.dev.head k) = some ⟨header s c, c.b, c.idx0⟩
  /-- `virtio_disk_rw` returns only after the device has completed the request of the call -/
  returns : ∀ p c k s', s.pc p = .wait c k → step s (.go p) = some s' → s'.pc p = .idle → k ∈ s.posted
  /-- the device has not consumed these entries: they are
  still there, and the next one is written elsewhere -/
  intact : ∀ k c, s.dev.took ≤ k → s.sent[k]? = some c → s.disk.avail.ring (k % NUM) = c.idx0
  apart : ∀ p c k, s.pc p = .ring c → s.dev.took ≤ k → k < s.sent.length →
    k % NUM ≠ s.disk.avail.idx.toNat % NUM
  /-- no panic -/
  alive : s.panic = none
  /-- no request in progress: all descriptors are free -/
  quiet : (∀ p, s.pc p = .idle) → ∀ i, i < NUM → s.disk.free i = true

/-- Any number of calls of `virtio_disk_rw`, completions in any order, any number of requests. -/
theorem disk_requests {s : Sys m n D} (h : (lts m n D).Reachable s) : Right s := by
  have hi := inv_inductive.reachable h
  refine ⟨fun p q i => hi.owns.disjoint, fun i => hi.owns.free_iff, fun hne => ?_, hi.reqs.number,
    fun k hk => ?_, fun p c k s' hpc hs hidle => ?_, fun k c hk hc => ?_,
    fun p c k hpc hk hlt => ?_, hi.alive, fun hidle i hlt => ?_⟩
  · obtain ⟨p, c, k, hk, hp, -, hid, hb, hstat⟩ := next_used hi hne
    rw [hid]
    exact ⟨p, c, k, hp, List.mem_of_getElem? hk, rfl, hb, hstat⟩
  · obtain ⟨c, hc, hhead⟩ := hi.sent_of_taken (k := k) (by rw [hk]; decide)
    obtain ⟨p, hp⟩ := hi.reqs.waiter k c hc (by rw [hk]; decide)
    have hcall := Pc.call_of_request hp
    refine ⟨p, c, hp, ?_⟩
    rw [hhead, fetch_formed hi hcall, (hi.forms p c hcall).ops]
    rfl
  · have hreq : (s.pc p).request = some (c, k) := by rw [hpc]; rfl
    refine hi.useds.mem k (.inr ?_)
    by_contra hst
    -- `b->disk` is still set, so the call goes to sleep
    have hdisk := (hi.reqs.flag p c k hreq).2 hst
    have hgo : step s (.go p) = some (exec (waitStep p c k) s) := by
      unfold step
      rw [if_pos hi.alive]
      show go s p = _
      unfold go
      rw [hpc]
    rw [hgo] at hs
    cases hs
    have hsleep : (exec (waitStep p c k) s).pc p = .resume c k := by
      have hrun : waitStep p c k s = .ok ((), { s with
          lock := none, asleep := update s.asleep p (some (.buf c.b)), pc :=
          update s.pc p (.resume c k) }) := by
        unfold waitStep
        rw [bind_ok (show Prog.get s = .ok (s, s) from rfl), if_pos hdisk]
        rfl
      unfold exec
      rw [hrun]
      exact update_self _ _ _
    rw [hsleep] at hidle
    cases hidle
  · have hlt : k < (s.sent.map Call.idx0).length := by
      rw [List.length_map]
      exact (List.getElem?_eq_some_iff.1 hc).1
    rw [hi.avails.ring.cell k hlt hk, List.getElem_map, (List.getElem?_eq_some_iff.1 hc).2]
  · have hroom := hi.avail_room (p := p) (c := c) (by rw [hpc]; rfl) (by rw [hpc]; rfl)
    rw [hi.avails.idx, ofNat_toNat_mod]
    exact Ring.mod_ne hlt (by omega)
  · refine (hi.owns.free_iff hlt).2 fun p => ?_
    rw [hidle p]
    exact List.not_mem_nil

/-- Two processes and two buffers after `virtio_disk_init`. -/
def boot : Sys 2 2 Nat where
  disk :=
    ⟨fun _ => .zero, ⟨0, fun _ => 0⟩, ⟨0, fun _ => 0⟩, fun _ => true, 0,
      fun _ => ⟨none, 0⟩, fun _ => ⟨0, 0, 0⟩⟩
  buf b := ⟨false, UInt32.ofNat b, 7⟩
  lock := none
  held _ := none
  asleep _ := none
  pc _ := .idle
  dev := ⟨0, fun _ => 0, 0, none, fun _ => 0⟩
  panic := none
  stage _ := .avail
  sent := []
  posted := []
  seen := 0

theorem boot_init : Init boot := by
  refine ⟨?_, rfl, rfl, rfl, rfl, ?_, rfl, rfl, rfl, rfl, ?_, rfl, rfl, rfl⟩ <;> intros <;> rfl

theorem reachable_of_foldlM {ls : List (Lbl 2 2 Nat)} {s : Sys 2 2 Nat} (h : ls.foldlM step boot = some s) :
    (lts 2 2 Nat).Reachable s := ⟨boot, ls, boot_init, LTS.Run.of_foldlM (fun _ _ _ => id) h⟩

/-- Two requests, of which the device completes the second
first; its entry of the used ring is not handled yet. -/
def secondFirst : List (Lbl 2 2 Nat) :=
  [.acquiresleep 0 0, .acquiresleep 1 1, .rw 0 0 false, .rw 1 1 true] ++
    [.go 0, .go 0, .go 0, .go 0, .go 0] ++ [.go 1, .go 1, .go 1, .go 1, .go 1] ++
    [.take, .take, .serve 1, .post 1, .publish, .intr]

theorem disk_requests_secondFirst :
    ∃ s, secondFirst.foldlM step boot = some s ∧ s.disk.usedIdx ≠ s.disk.used.idx ∧ Right s := by
  have hrun : ∃ s, secondFirst.foldlM step boot = some s ∧ s.disk.usedIdx ≠ s.disk.used.idx := by
    refine ⟨(secondFirst.foldlM step boot).getD boot, rfl, ?_⟩
    decide
  obtain ⟨s, hs, hne⟩ := hrun
  exact ⟨s, hs, hne, disk_requests (reachable_of_foldlM hs)⟩

end Xv6.Virtio
