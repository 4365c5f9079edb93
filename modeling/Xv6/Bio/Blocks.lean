import Xv6.Bio.Pin
import Xv6.Fs.Basic
import Xv6.Log.Crash

/-!
# The cache as a map of blocks

`Xv6.Log.Basic` and `Xv6.Fs.Basic` have a map of block contents where the
kernel has buffers. The buffers behave as the map (`Shows`) in the runs of
`cache_coherent`.

* `Shows.step`: only a holder's change and a `bwrite` change the map.
* `shows_boot`, `log_shows`, `fs_shows`: what the two models do to the map is
  what the buffers do, and `bread` returns what is in it.
-/
namespace Xv6.Bio
open Function (update update_self update_of_ne update_apply)

section
variable {m n : Nat} {D : Type} {s s' s'' : Sys m n D} {p : Fin m} {b : Fin n} {k : UInt32} {l : Lbl m n D}
  {blk disk : Nat → D}

/-- `blk` has what a reader of a block gets, and `disk` what is on the disk. -/
structure Shows (s : Sys m n D) (blk disk : Nat → D) : Prop where
  blk : ∀ k : UInt32, blk k.toNat = s.content k
  disk : ∀ k : UInt32, disk k.toNat = s.disk k

/-- The contents after a step. -/
def Lbl.stored (s : Sys m n D) (blk : Nat → D) : Lbl m n D → Nat → D
  | .modify _ b d => update blk (s.buf b).blockno.toNat d
  | _ => blk

/-- The disk after a step. -/
def Lbl.flushed (s : Sys m n D) (blk disk : Nat → D) : Lbl m n D → Nat → D
  | .bwrite p b =>
    if (s.buf b).lock = some p then update disk (s.buf b).blockno.toNat
      (blk (s.buf b).blockno.toNat) else disk
  | _ => disk

theorem update_toNat {f : Nat → D} {g : UInt32 → D} (h : ∀ k : UInt32, f k.toNat = g k) (k₀ : UInt32) (d : D)
    (k : UInt32) : update f k₀.toNat d k.toNat = update g k₀ d k := by
  by_cases e : k = k₀
  · rw [e, update_self, update_self]
  · rw [update_of_ne e, update_of_ne (mt UInt32.toNat_inj.1 e), h]

theorem Shows.step (hv : Shows s blk disk) (h : CacheInv s) (hs : Bio.step s l = some s') :
    Shows s' (l.stored s blk) (l.flushed s blk disk) := by
  cases (step_fires h.list hs).2 with
  | bread p k s' idle get => cases get <;> subst s' <;> exact ⟨hv.blk, hv.disk⟩
  | lock | fill | bpin | bunpin => exact ⟨hv.blk, hv.disk⟩
  | drop p b pc =>
    obtain ⟨_, _, hdisk, hcontent, _⟩ := drop_fields s p b
    exact ⟨hcontent ▸ hv.blk, hdisk ▸ hv.disk⟩
  | modify p b d idle held => exact ⟨update_toNat hv.blk _ d, hv.disk⟩
  | bwrite p b idle =>
    simp only [bwrite, Lbl.flushed]
    split
    · -- what is written is what a reader of the block gets
      rename_i hl
      rw [hv.blk, ← h.data b (h.valid idle hl)]
      exact ⟨hv.blk, update_toNat hv.disk _ _⟩
    · exact ⟨hv.blk, hv.disk⟩
  | brelse p b idle => unfold brelse; split <;> exact ⟨hv.blk, hv.disk⟩

/-- The last step of a `bread` returns what the map has. -/
theorem Shows.returns (hv : Shows s blk disk) (h : CacheInv s) (hp : s.pc p = .fill b k)
    (hs : Bio.step s (.go p) = some s') : (s'.buf b).data = blk k.toNat ∧ Shows s' blk disk := by
  refine ⟨?_, hv.step (l := .go p) h hs⟩
  rw [hv.blk, (h.returns (cacheInv_step (l := .go p) h trivial trivial hs) hp hs).data]

end

section
variable {m n : Nat} {s : Sys m n Block}

theorem shows_boot (h : Init s) {start size : Nat} {d : Nat → Block}
    (hd : ∀ k : UInt32, d k.toNat = s.disk k) :
    Shows s (Log.boot start size d).cached (Log.boot start size d).disk :=
  ⟨fun k => by rw [h.content, ← hd]; rfl, hd⟩

variable (hr : ((lts m n Block).only fun s l => Writes s l ∧ Counts s l).Reachable s)
include hr

/-- `Xv6.Log.bread` reads what the buffers give, and `Xv6.Log.bwrite` does what a change and a `bwrite` do. -/
theorem log_shows (l : Log.St) (hv : Shows s l.cached l.disk) (p : Fin m) (b : Fin n) :
    (∀ k s', s.pc p = .fill b k → step s (.go p) = some s' → (s'.buf b).data = (Log.bread l k.toNat).1 ∧
      Shows s' (Log.bread l k.toNat).2.cached (Log.bread l k.toNat).2.disk) ∧
    ∀ d s' s'', step s (.modify p b d) = some s' → step s' (.bwrite p b) = some s'' →
      Shows s'' (Log.bwrite l (s.buf b).blockno.toNat d).cached
      (Log.bwrite l (s.buf b).blockno.toNat d).disk := by
  have h := cacheInv_inductive.reachable hr
  refine ⟨fun k s' hp hs => ?_, fun d s' s'' h1 h2 => ?_⟩
  · rw [show (Log.bread l k.toNat).2.cached = l.cached from funext (Log.cached_bread l k.toNat)]
    exact hv.returns h hp hs
  · have hv2 := (hv.step h h1).step (cacheInv_step (l := .modify p b d) h trivial trivial h1) h2
    cases (step_fires h.list h1).2 with
    | modify p b d idle held =>
      simp only [Lbl.stored, Lbl.flushed, modify, update_self, held, if_true] at hv2
      have hc : (Log.bwrite l (s.buf b).blockno.toNat d).cached = update l.cached (s.buf b).blockno.toNat d :=
        funext fun c => by rw [Log.cached_bwrite, update_apply]
      have hd : (Log.bwrite l (s.buf b).blockno.toNat d).disk = update l.disk (s.buf b).blockno.toNat d :=
        funext fun c => (update_apply ..).symm
      rw [hc, hd]
      exact hv2

/-- `Xv6.Fs.bread` reads what the buffers give, and `Xv6.Fs.bstore` does what a change of a buffer does. -/
theorem fs_shows (f : Fs.St) {disk : Nat → Block} (hv : Shows s f.blk disk) (p : Fin m) (b : Fin n) :
    (∀ k s', s.pc p = .fill b k → step s (.go p) = some s' →
      Fs.bread k.toNat f = .ok ((s'.buf b).data, f) ∧ Shows s' f.blk disk) ∧
    ∀ d s', step s (.modify p b d) = some s' →
      ∃ f', Fs.bstore (s.buf b).blockno.toNat d f = .ok ((), f') ∧ Shows s' f'.blk disk := by
  have h := cacheInv_inductive.reachable hr
  refine ⟨fun k s' hp hs => ?_, fun d s' hs => ⟨_, rfl, hv.step h hs⟩⟩
  obtain ⟨hdata, hv'⟩ := hv.returns h hp hs
  exact ⟨by rw [hdata]; rfl, hv'⟩

end
end Xv6.Bio
