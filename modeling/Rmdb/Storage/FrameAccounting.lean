import Mathlib.Data.List.Nodup
import Rmdb.Storage.BufferPool

/-!
# Frame accounting

- `SameFrames`: two pools that differ in bytes, dirty bits, disk and log only;
- `FramesBut`: the invariant of page table, frame ids, pins, `free_list_` and replacer, with one frame taken out. A frame
  on `free_list_` may be left over in the replacer, which is looked at only when `free_list_` is empty;
- one rule for each operation, then `Reach`: the pools that calls with successful I/O reach, with `FrameAccounting` in
  each of them;
- `fetchPage_not_leftUnchanged`: a `fetch_page` whose read fails has given the frame to the page already, and the next
  one returns it.
-/

namespace Rmdb

open Lib

namespace BufferPoolManager

/-- The pools agree in everything but bytes, dirty bits, disk and log. -/
structure SameFrames (s s' : BufferPoolManager) : Prop where
  poolSize : s'.poolSize = s.poolSize
  pageTable : s'.pageTable = s.pageTable
  freeList : s'.freeList = s.freeList
  replacer : s'.replacer = s.replacer
  id : ∀ frame, (s'.pages frame).id = (s.pages frame).id
  pinCount : ∀ frame, (s'.pages frame).pinCount = (s.pages frame).pinCount

/-- The frames are accounted for, but for the frame that the running operation took. -/
structure FramesBut (taken : Option Nat) (s : BufferPoolManager) : Prop where
  table : ∀ pageId frame, s.pageTable pageId = some frame ↔
    frame < s.poolSize ∧ (s.pages frame).id = pageId ∧ pageId.pageNo ≠ invalidPageId
  free_nodup : s.freeList.Nodup
  free : ∀ frame ∈ s.freeList,
    frame < s.poolSize ∧ (s.pages frame).id.pageNo = invalidPageId ∧ (s.pages frame).pinCount = 0
  lru_nodup : s.replacer.lruList.Nodup
  lru : ∀ frame ∈ s.replacer.lruList, frame < s.poolSize ∧ (s.pages frame).pinCount = 0
  pin_nonneg : ∀ frame < s.poolSize, 0 ≤ (s.pages frame).pinCount
  idle : ∀ frame < s.poolSize, (s.pages frame).pinCount = 0 →
    frame ∈ s.freeList ∨ frame ∈ s.replacer.lruList ∨ taken = some frame
  taken : ∀ frame, taken = some frame →
    frame < s.poolSize ∧ (s.pages frame).pinCount = 0 ∧ frame ∉ s.freeList

/-- Every frame is accounted for. -/
abbrev Frames (s : BufferPoolManager) : Prop := FramesBut none s

namespace SameFrames

theorem rfl {s : BufferPoolManager} : SameFrames s s :=
  ⟨.refl _, .refl _, .refl _, .refl _, fun _ => .refl _, fun _ => .refl _⟩

theorem trans {s s' s'' : BufferPoolManager} (h : SameFrames s s') (h' : SameFrames s' s'') : SameFrames s s'' where
  poolSize := h'.poolSize.trans h.poolSize
  pageTable := h'.pageTable.trans h.pageTable
  freeList := h'.freeList.trans h.freeList
  replacer := h'.replacer.trans h.replacer
  id frame := (h'.id frame).trans (h.id frame)
  pinCount frame := (h'.pinCount frame).trans (h.pinCount frame)

/-- A frame with the same id and pin count. -/
theorem setPage {s : BufferPoolManager} {frame : Nat} {page : Page} (hid : page.id = (s.pages frame).id)
    (hpin : page.pinCount = (s.pages frame).pinCount) : SameFrames s (s.setPage frame page) := by
  refine ⟨.refl _, .refl _, .refl _, .refl _, ?_, ?_⟩ <;> intro f <;> by_cases hf : f = frame
  · subst hf; simpa [BufferPoolManager.setPage] using hid
  · simp [BufferPoolManager.setPage, hf]
  · subst hf; simpa [BufferPoolManager.setPage] using hpin
  · simp [BufferPoolManager.setPage, hf]

theorem flushLogFor (s : BufferPoolManager) (page : Page) : SameFrames s (s.flushLogFor page) := by
  unfold BufferPoolManager.flushLogFor
  split
  · split
    · exact ⟨.refl _, .refl _, .refl _, .refl _, fun _ => .refl _, fun _ => .refl _⟩
    · exact rfl
  · exact rfl

end SameFrames

theorem FramesBut.congr {taken : Option Nat} {s s' : BufferPoolManager} (h : FramesBut taken s) (hs : SameFrames s s') :
    FramesBut taken s' := by
  constructor <;> simp only [hs.poolSize, hs.pageTable, hs.freeList, hs.replacer, hs.id, hs.pinCount]
  · exact h.table
  · exact h.free_nodup
  · exact h.free
  · exact h.lru_nodup
  · exact h.lru
  · exact h.pin_nonneg
  · exact h.idle
  · exact h.taken

/-! ## Pages go to disk -/

section writing
variable (s : BufferPoolManager)

/-- Writing a page back moves no frame, whether the write succeeds or not. -/
theorem writeBack_frames (frame : Nat) :
    Act.Triple (· = s) (writeBack frame) (fun _ => SameFrames s) (fun _ => SameFrames s) := by
  unfold writeBack
  apply Act.Triple.get_bind
  apply Act.Triple.modify_bind
  have hlog := SameFrames.flushLogFor s (s.pages frame)
  split
  · exact Act.Triple.throw_eq hlog
  · next d _ =>
    apply Act.Triple.modify_eq
    have hdisk : SameFrames s { s.flushLogFor (s.pages frame) with diskManager := d } :=
      ⟨hlog.poolSize, hlog.pageTable, hlog.freeList, hlog.replacer, hlog.id, hlog.pinCount⟩
    exact hdisk.trans (.setPage (hdisk.id frame).symm (hdisk.pinCount frame).symm)

theorem writeIfDirty_frames (frame : Nat) :
    Act.Triple (· = s) (writeIfDirty frame) (fun _ => SameFrames s) (fun _ => SameFrames s) := by
  unfold writeIfDirty
  apply Act.Triple.get_bind
  split
  · exact writeBack_frames s frame
  · exact Act.Triple.pure_eq .rfl

end writing

/-! ## A frame changes hands -/

section taking
variable {s : BufferPoolManager} {frame : Nat} {pageId : PageId}

theorem FramesBut.lt_of_table {taken : Option Nat} (h : FramesBut taken s) (ht : s.pageTable pageId = some frame) :
    frame < s.poolSize := ((h.table pageId frame).1 ht).1

/-- A pinned frame is neither free nor evictable. -/
theorem FramesBut.not_mem_of_pinned {taken : Option Nat} (h : FramesBut taken s) (hp : 0 < (s.pages frame).pinCount) :
    frame ∉ s.freeList ∧ frame ∉ s.replacer.lruList := by
  constructor
  · intro hf
    have := (h.free frame hf).2.2
    omega
  · intro hl
    have := (h.lru frame hl).2
    omega

/-- What `find_victim_page` returns, and the pool that it leaves. -/
def Victim (s : BufferPoolManager) : Option Nat → BufferPoolManager → Prop
  | some frame, t => FramesBut (some frame) t ∧ t = { s with freeList := t.freeList, replacer := t.replacer }
  | none, t => t = s ∧ ∀ frame < s.poolSize, 0 < (s.pages frame).pinCount

/-- A victim comes from `free_list_`, or from the replacer when that is empty; none is found when all are pinned. -/
theorem findVictimPage_frames (h : Frames s) :
    Act.Triple (· = s) findVictimPage (Victim s) (fun _ _ => False) := by
  unfold findVictimPage
  apply Act.Triple.get_bind
  split
  · next frame rest hfree =>
    apply Act.Triple.modify_bind
    apply Act.Triple.pure_eq
    have hnd := h.free_nodup
    rw [hfree, List.nodup_cons] at hnd
    have hmem : frame ∈ s.freeList := by simp [hfree]
    refine ⟨⟨h.table, hnd.2, fun f hf => h.free f (by simp [hfree, hf]), h.lru_nodup, h.lru, h.pin_nonneg, ?_, ?_⟩, rfl⟩
    · intro f hf hp
      have := h.idle f hf hp
      simp only [hfree, List.mem_cons] at this
      grind
    · rintro _ ⟨rfl⟩
      exact ⟨(h.free frame hmem).1, (h.free frame hmem).2.2, hnd.1⟩
  · next hfree =>
    unfold LRUReplacer.victim
    cases hlast : s.replacer.lruList.getLast? with
    | none =>
      apply Act.Triple.pure_eq
      refine ⟨rfl, fun f hf => ?_⟩
      have hlru := List.getLast?_eq_none_iff.1 hlast
      have hnn := h.pin_nonneg f hf
      have hne : (s.pages f).pinCount ≠ 0 := fun hp => by simpa [hfree, hlru] using h.idle f hf hp
      omega
    | some frame =>
      apply Act.Triple.modify_bind
      apply Act.Triple.pure_eq
      obtain ⟨front, hfront⟩ := List.getLast?_eq_some_iff.1 hlast
      have hmem : frame ∈ s.replacer.lruList := by simp [hfront]
      have hlru : ∀ f ∈ s.replacer.lruList, f = frame ∨ f ∈ s.replacer.lruList.dropLast := by
        intro f hf
        simp only [hfront, List.dropLast_concat, List.mem_append, List.mem_singleton] at hf ⊢
        exact hf.symm
      have hsub := List.dropLast_sublist s.replacer.lruList
      refine ⟨⟨h.table, h.free_nodup, h.free, h.lru_nodup.sublist hsub, fun f hf => h.lru f (hsub.mem hf), h.pin_nonneg,
        ?_, ?_⟩, rfl⟩
      · intro f hf hp
        rcases h.idle f hf hp with hf' | hf' | hf'
        · exact .inl hf'
        · rcases hlru f hf' with rfl | hf'
          · exact .inr (.inr rfl)
          · exact .inr (.inl hf')
        · cases hf'
      · rintro _ ⟨rfl⟩
        exact ⟨(h.lru frame hmem).1, (h.lru frame hmem).2, by simp [hfree]⟩

/-- The frame that was taken changes over to a page that is not cached. -/
theorem FramesBut.replacePage (h : FramesBut (some frame) s) (hnone : s.pageTable pageId = none) :
    FramesBut (some frame) (s.replacePage pageId frame) := by
  obtain ⟨hlt, hpin, hnfree⟩ := h.taken frame rfl
  have hid : ∀ f, ((s.replacePage pageId frame).pages f).id = if f = frame then pageId else (s.pages f).id := by
    intro f
    by_cases hf : f = frame <;> simp [BufferPoolManager.replacePage, setPage, hf]
  have hcount : ∀ f, ((s.replacePage pageId frame).pages f).pinCount = (s.pages f).pinCount := by
    intro f
    by_cases hf : f = frame <;> simp [BufferPoolManager.replacePage, setPage, hf]
  have htable : ∀ p, (s.replacePage pageId frame).pageTable p =
      if p = pageId ∧ pageId.pageNo ≠ invalidPageId then some frame
      else if p = (s.pages frame).id then none else s.pageTable p := by
    intro p
    simp only [BufferPoolManager.replacePage, setPage]
    grind
  refine ⟨?_, h.free_nodup, ?_, h.lru_nodup, ?_, ?_, ?_, ?_⟩
  · intro p f
    have := h.table p f
    have := h.table pageId f
    have := h.table p frame
    rw [htable, hid]
    change _ ↔ f < s.poolSize ∧ _
    grind
  · intro f hf
    rw [hid, hcount, if_neg (by rintro rfl; exact hnfree hf)]
    exact h.free f hf
  · intro f hf
    rw [hcount]
    exact h.lru f hf
  · intro f hf
    rw [hcount]
    exact h.pin_nonneg f hf
  · intro f hf hp
    rw [hcount] at hp
    exact h.idle f hf hp
  · rintro _ ⟨rfl⟩
    rw [hcount]
    exact ⟨hlt, hpin, hnfree⟩

/-- A frame that is not free gets a positive pin count and leaves the replacer. -/
theorem FramesBut.hold {taken : Option Nat} {n : Int} (h : FramesBut taken s)
    (htaken : ∀ f, taken = some f → f = frame) (hlt : frame < s.poolSize) (hfree : frame ∉ s.freeList) (hn : 0 < n) :
    Frames ((s.pin frame).setPinCount frame n) := by
  have hid : ∀ f, (((s.pin frame).setPinCount frame n).pages f).id = (s.pages f).id := by
    intro f
    by_cases hf : f = frame <;> simp [setPinCount, setPage, BufferPoolManager.pin, hf]
  have hcount : ∀ f, (((s.pin frame).setPinCount frame n).pages f).pinCount =
      if f = frame then n else (s.pages f).pinCount := by
    intro f
    by_cases hf : f = frame <;> simp [setPinCount, setPage, BufferPoolManager.pin, hf]
  have hlru : ∀ f, f ∈ ((s.pin frame).setPinCount frame n).replacer.lruList ↔ f ≠ frame ∧ f ∈ s.replacer.lruList :=
    fun f => h.lru_nodup.mem_erase_iff
  refine ⟨?_, h.free_nodup, ?_, h.lru_nodup.erase _, ?_, ?_, ?_, by simp⟩
  · intro p f
    rw [hid]
    exact h.table p f
  · intro f hf
    rw [hid, hcount, if_neg (by rintro rfl; exact hfree hf)]
    exact h.free f hf
  · intro f hf
    obtain ⟨hne, hf⟩ := (hlru f).1 hf
    rw [hcount, if_neg hne]
    exact h.lru f hf
  · intro f hf
    rw [hcount]
    split
    · omega
    · exact h.pin_nonneg f hf
  · intro f hf hp
    rw [hcount] at hp
    split at hp
    · omega
    · next hne =>
      rcases h.idle f hf hp with hf' | hf' | hf'
      · exact .inl hf'
      · exact .inr (.inl ((hlru f).2 ⟨hne, hf'⟩))
      · exact absurd (htaken f hf') hne

theorem FramesBut.not_free_of_table {taken : Option Nat} (h : FramesBut taken s)
    (ht : s.pageTable pageId = some frame) : frame ∉ s.freeList := by
  intro hf
  obtain ⟨-, hid, hno⟩ := (h.table pageId frame).1 ht
  exact hno (hid ▸ (h.free frame hf).2.1)

/-- One pin less; the last one makes the frame evictable. -/
theorem FramesBut.release (h : Frames s) (ht : s.pageTable pageId = some frame)
    (hp : 0 < (s.pages frame).pinCount) {t s' : BufferPoolManager}
    (ht' : t = s.setPinCount frame ((s.pages frame).pinCount - 1))
    (hs' : s' = if (t.pages frame).pinCount = 0 then t.unpin frame else t) : Frames s' := by
  have hone : (t.pages frame).pinCount = (s.pages frame).pinCount - 1 := by simp [ht', setPinCount, setPage]
  rw [hone, ht'] at hs'
  have hlt := h.lt_of_table ht
  obtain ⟨hnfree, hnlru⟩ := h.not_mem_of_pinned hp
  have hid : ∀ f, (s'.pages f).id = (s.pages f).id := by
    intro f
    by_cases hf : f = frame <;> rw [hs'] <;> split <;> simp [setPinCount, setPage, unpin, hf]
  have hcount : ∀ f, (s'.pages f).pinCount =
      if f = frame then (s.pages f).pinCount - 1 else (s.pages f).pinCount := by
    intro f
    by_cases hf : f = frame <;> rw [hs'] <;> split <;> simp [setPinCount, setPage, unpin, hf]
  have hrest : s'.poolSize = s.poolSize ∧ s'.pageTable = s.pageTable ∧ s'.freeList = s.freeList := by
    rw [hs']
    split <;> exact ⟨rfl, rfl, rfl⟩
  obtain ⟨hsize, htable, hfree⟩ := hrest
  have hlru : s'.replacer.lruList =
      if (s.pages frame).pinCount - 1 = 0 then frame :: s.replacer.lruList else s.replacer.lruList := by
    rw [hs']
    split
    · exact congrArg _ (if_neg hnlru)
    · rfl
  refine ⟨?_, hfree ▸ h.free_nodup, ?_, ?_, ?_, ?_, ?_, by simp⟩
  · intro p f
    rw [htable, hsize, hid]
    exact h.table p f
  · intro f hf
    rw [hfree] at hf
    rw [hsize, hid, hcount, if_neg (by rintro rfl; exact hnfree hf)]
    exact h.free f hf
  · rw [hlru]
    split
    · exact List.nodup_cons.2 ⟨hnlru, h.lru_nodup⟩
    · exact h.lru_nodup
  · intro f hf
    rw [hlru] at hf
    rw [hsize, hcount]
    have := h.lru f
    grind
  · intro f hf
    rw [hsize] at hf
    rw [hcount]
    have := h.pin_nonneg f hf
    grind
  · intro f hf hp'
    rw [hsize] at hf
    rw [hcount] at hp'
    rw [hlru, hfree]
    have := h.idle f hf
    grind

/-- A cached page leaves its frame. -/
theorem FramesBut.freePage (h : Frames s) (ht : s.pageTable pageId = some frame) :
    Frames (s.freePage pageId frame 0) := by
  have hlt := h.lt_of_table ht
  have hnfree := h.not_free_of_table ht
  obtain ⟨-, hpage, -⟩ := (h.table pageId frame).1 ht
  have hid : ∀ f, ((s.freePage pageId frame 0).pages f).id =
      if f = frame then ⟨-1, invalidPageId⟩ else (s.pages f).id := by
    intro f
    by_cases hf : f = frame <;> simp [BufferPoolManager.freePage, setPage, hf]
  have hcount : ∀ f, ((s.freePage pageId frame 0).pages f).pinCount =
      if f = frame then 0 else (s.pages f).pinCount := by
    intro f
    by_cases hf : f = frame <;> simp [BufferPoolManager.freePage, setPage, hf]
  have hfree : (s.freePage pageId frame 0).freeList = s.freeList ++ [frame] := rfl
  refine ⟨?_, ?_, ?_, h.lru_nodup, ?_, ?_, ?_, by simp⟩
  · intro p f
    have := h.table p f
    have hp : (s.freePage pageId frame 0).pageTable p = if p = pageId then none else s.pageTable p :=
      Function.update_apply ..
    rw [hp, hid]
    change _ ↔ f < s.poolSize ∧ _
    by_cases hf : f = frame
    · subst hf
      simp only [if_pos]
      grind
    · grind
  · rw [hfree, List.nodup_append]
    exact ⟨h.free_nodup, by simp, by simpa using fun f hf => ne_of_mem_of_not_mem hf hnfree⟩
  · intro f hf
    rw [hfree, List.mem_append, List.mem_singleton] at hf
    rw [hid, hcount]
    change f < s.poolSize ∧ _
    by_cases hff : f = frame
    · subst hff
      simpa using hlt
    · simpa only [if_neg hff] using h.free f (hf.resolve_right hff)
  · intro f hf
    rw [hcount]
    split
    · exact ⟨(h.lru f hf).1, rfl⟩
    · exact h.lru f hf
  · intro f hf
    rw [hcount]
    split
    · exact Int.le_refl 0
    · exact h.pin_nonneg f hf
  · intro f hf hp
    rw [hcount] at hp
    rw [hfree, List.mem_append, List.mem_singleton]
    split at hp
    · next he => exact .inl (.inr he)
    · rcases h.idle f hf hp with hf' | hf' | hf'
      · exact .inl (.inl hf')
      · exact .inr (.inl hf')
      · cases hf'

end taking

/-! ## The operations -/

section operations
variable {s : BufferPoolManager}

theorem updatePage_frames {frame : Nat} {pageId : PageId} (h : FramesBut (some frame) s)
    (hnone : s.pageTable pageId = none) : Act.Triple (· = s) (updatePage pageId frame)
      (fun _ => FramesBut (some frame)) (fun _ _ => True) := by
  unfold updatePage
  apply Act.Triple.bind (writeIfDirty_frames s frame).lax
  intro _
  apply Act.Triple.modify
  intro t ht
  exact (h.congr ht).replacePage (by rwa [ht.pageTable])

theorem fetchPage_frames (h : Frames s) (pageId : PageId) :
    Act.Triple (· = s) (fetchPage pageId) (fun _ => Frames) (fun _ _ => True) := by
  unfold fetchPage
  apply Act.Triple.get_bind
  split
  · next frame ht =>
    apply Act.Triple.modify_bind
    apply Act.Triple.pure_eq
    have hnn := h.pin_nonneg frame (h.lt_of_table ht)
    exact h.hold (by simp) (h.lt_of_table ht) (h.not_free_of_table ht) (by omega)
  · next ht =>
    apply Act.Triple.bind (findVictimPage_frames h).lax
    intro victim
    apply Act.Triple.of_eq
    intro t htaken
    cases victim with
    | none =>
      obtain ⟨rfl, -⟩ := htaken
      exact Act.Triple.pure_eq h
    | some frame =>
      obtain ⟨htaken, heq⟩ := htaken
      apply Act.Triple.bind (updatePage_frames htaken (by rw [heq]; exact ht))
      intro _
      apply Act.Triple.of_eq
      intro t htaken
      apply Act.Triple.get_bind
      split
      · exact Act.Triple.throw_eq trivial
      · next data _ =>
        apply Act.Triple.modify_bind
        apply Act.Triple.modify_bind
        apply Act.Triple.pure_eq
        obtain ⟨hlt, -, hfree⟩ := htaken.taken frame rfl
        have hread : FramesBut (some frame) (t.setPage frame { t.pages frame with data := data }) :=
          htaken.congr (.setPage rfl rfl)
        exact hread.hold (by simp) hlt hfree Int.one_pos

theorem newPage_frames (h : Frames s) {fd : Int} (hfresh : s.pageTable ⟨fd, s.diskManager.fd2pageno fd⟩ = none) :
    Act.Triple (· = s) (newPage fd) (fun _ => Frames) (fun _ _ => True) := by
  unfold newPage
  apply Act.Triple.bind (findVictimPage_frames h).lax
  intro victim
  apply Act.Triple.of_eq
  intro t htaken
  cases victim with
  | none =>
    obtain ⟨rfl, -⟩ := htaken
    exact Act.Triple.pure_eq h
  | some frame =>
    obtain ⟨htaken, heq⟩ := htaken
    apply Act.Triple.get_bind
    apply Act.Triple.modify_bind
    apply Act.Triple.bind
    · apply updatePage_frames
      · exact htaken.congr ⟨rfl, rfl, rfl, rfl, fun _ => rfl, fun _ => rfl⟩
      · rw [heq]
        exact hfresh
    · intro _
      apply Act.Triple.of_eq
      intro t htaken
      apply Act.Triple.modify_bind
      apply Act.Triple.pure_eq
      obtain ⟨hlt, -, hfree⟩ := htaken.taken frame rfl
      exact htaken.hold (by simp) hlt hfree Int.one_pos

theorem unpinPage_frames (h : Frames s) (pageId : PageId) (isDirty : Bool) :
    Act.Triple (· = s) (unpinPage pageId isDirty) (fun _ => Frames) (fun _ _ => True) := by
  unfold unpinPage
  apply Act.Triple.get_bind
  split
  · exact Act.Triple.pure_eq h
  · next frame ht =>
    split
    · exact Act.Triple.pure_eq h
    · next hp =>
      apply Act.Triple.modify_bind
      apply Act.Triple.modify_bind
      apply Act.Triple.modify_bind
      apply Act.Triple.pure_eq
      have hrelease := h.release ht (by omega) rfl rfl
      split
      · exact hrelease.congr (.setPage rfl rfl)
      · exact hrelease

theorem flushPage_frames (h : Frames s) (pageId : PageId) :
    Act.Triple (· = s) (flushPage pageId) (fun _ => Frames) (fun _ _ => True) := by
  unfold flushPage
  apply Act.Triple.get_bind
  split
  · exact Act.Triple.pure_eq h
  · next frame _ =>
    apply Act.Triple.bind (writeBack_frames s frame).lax
    intro _
    exact Act.Triple.pure fun t ht => h.congr ht

theorem deletePage_frames (h : Frames s) (pageId : PageId) :
    Act.Triple (· = s) (deletePage pageId) (fun _ => Frames) (fun _ _ => True) := by
  unfold deletePage
  apply Act.Triple.get_bind
  split
  · exact Act.Triple.pure_eq h
  · next frame ht =>
    split
    · exact Act.Triple.pure_eq h
    · next hp =>
      have hzero : (s.pages frame).pinCount = 0 := by
        have := h.pin_nonneg frame (h.lt_of_table ht)
        omega
      apply Act.Triple.bind (writeIfDirty_frames s frame).lax
      intro _
      apply Act.Triple.of_eq
      intro t hsame
      apply Act.Triple.modify_bind
      apply Act.Triple.pure_eq
      rw [hsame.pinCount, hzero]
      exact (h.congr hsame).freePage (by rwa [hsame.pageTable])

theorem flushAllPages_frames (h : Frames s) (fd : Int) :
    Act.Triple (· = s) (flushAllPages fd) (fun _ => Frames) (fun _ _ => True) := by
  unfold flushAllPages
  apply Act.Triple.get_bind
  refine Act.Triple.conseq (Act.Triple.forM (I := Frames) (E := fun _ _ => True) (List.range s.poolSize) ?_)
    (by rintro _ rfl; exact h) (fun _ _ => id) fun _ _ => id
  intro frame _
  apply Act.Triple.of_eq
  intro t ht
  apply Act.Triple.get_bind
  split
  · exact (writeIfDirty_frames t frame).conseq (fun _ => id) (fun _ _ => ht.congr) fun _ _ _ => trivial
  · exact Act.Triple.pure_eq ht

theorem deleteAllPages_frames (h : Frames s) (fd : Int) :
    Act.Triple (· = s) (deleteAllPages fd) (fun _ => Frames) (fun _ _ => True) := by
  unfold deleteAllPages
  apply Act.Triple.get_bind
  refine Act.Triple.conseq (Act.Triple.forM (I := fun t => Frames t ∧ t.poolSize = s.poolSize)
    (E := fun _ _ => True) (List.range s.poolSize) ?_)
    (by rintro _ rfl; exact ⟨h, rfl⟩) (fun _ _ => And.left) fun _ _ => id
  intro frame hframe
  apply Act.Triple.of_eq
  rintro t ⟨ht, hsize⟩
  apply Act.Triple.get_bind
  split
  · next hholds =>
    apply Act.Triple.bind (writeIfDirty_frames t frame).lax
    intro _
    apply Act.Triple.modify
    intro u hu
    have htable : u.pageTable (u.pages frame).id = some frame := by
      apply ((ht.congr hu).table _ _).2
      have hlt := List.mem_range.1 hframe
      simp only [holds, decide_eq_true_eq] at hholds
      exact ⟨by rw [hu.poolSize, hsize]; exact hlt, rfl, by rw [hu.id]; exact hholds.2⟩
    exact ⟨(ht.congr hu).freePage htable, by rw [← hsize, ← hu.poolSize]; rfl⟩
  · exact Act.Triple.pure_eq ⟨ht, hsize⟩

end operations

/-! ## Runs -/

/-- A call of the pool. -/
inductive Call
  | fetchPage (pageId : PageId)
  | newPage (fd : Int)
  | unpinPage (pageId : PageId) (isDirty : Bool)
  | flushPage (pageId : PageId)
  | deletePage (pageId : PageId)
  | flushAllPages (fd : Int)
  | deleteAllPages (fd : Int)

/-- The call, its result left aside. -/
def Call.perform : Call → PoolM Unit
  | .fetchPage pageId => do let _ ← BufferPoolManager.fetchPage pageId
  | .newPage fd => do let _ ← BufferPoolManager.newPage fd
  | .unpinPage pageId isDirty => do let _ ← BufferPoolManager.unpinPage pageId isDirty
  | .flushPage pageId => do let _ ← BufferPoolManager.flushPage pageId
  | .deletePage pageId => do let _ ← BufferPoolManager.deletePage pageId
  | .flushAllPages fd => BufferPoolManager.flushAllPages fd
  | .deleteAllPages fd => BufferPoolManager.deleteAllPages fd

/-- The page number that `allocate_page` is about to return is not that of a cached page. -/
def Call.Fresh (s : BufferPoolManager) : Call → Prop
  | .newPage fd => s.pageTable ⟨fd, s.diskManager.fd2pageno fd⟩ = none
  | _ => True

/-- The pools reached by calls with successful I/O. Between two calls bytes, files and log may change. -/
inductive Reach (poolSize : Nat) : BufferPoolManager → Prop
  | new (d : DiskManager) (lm : Option LogManager) : Reach poolSize (new poolSize d lm)
  | outside {s s' : BufferPoolManager} : Reach poolSize s → SameFrames s s' → Reach poolSize s'
  | call {s s' : BufferPoolManager} (c : Call) : Reach poolSize s → c.Fresh s → c.perform.run s = (.ok (), s') →
      Reach poolSize s'

theorem new_frames (poolSize : Nat) (d : DiskManager) (lm : Option LogManager) : Frames (new poolSize d lm) := by
  refine ⟨?_, List.nodup_range, ?_, List.nodup_nil, ?_, ?_, ?_, ?_⟩
  · rintro pageId frame
    constructor
    · rintro ⟨⟩
    · rintro ⟨-, rfl, hno⟩
      exact absurd rfl hno
  · exact fun f hf => ⟨List.mem_range.1 hf, rfl, rfl⟩
  · simp [new]
  · exact fun _ _ => Int.le_refl 0
  · exact fun f hf _ => .inl (List.mem_range.2 hf)
  · simp

theorem call_frames {s : BufferPoolManager} (h : Frames s) {c : Call} (hc : c.Fresh s) :
    Act.Triple (· = s) c.perform (fun _ => Frames) (fun _ _ => True) := by
  cases c with
  | fetchPage pageId => exact (fetchPage_frames h pageId).bind fun _ => Act.Triple.pure fun _ => id
  | newPage fd => exact (newPage_frames h hc).bind fun _ => Act.Triple.pure fun _ => id
  | unpinPage pageId isDirty => exact (unpinPage_frames h pageId isDirty).bind fun _ => Act.Triple.pure fun _ => id
  | flushPage pageId => exact (flushPage_frames h pageId).bind fun _ => Act.Triple.pure fun _ => id
  | deletePage pageId => exact (deletePage_frames h pageId).bind fun _ => Act.Triple.pure fun _ => id
  | flushAllPages fd => exact flushAllPages_frames h fd
  | deleteAllPages fd => exact deleteAllPages_frames h fd

theorem Reach.frames {poolSize : Nat} {s : BufferPoolManager} (h : Reach poolSize s) : Frames s := by
  induction h with
  | new d lm => exact new_frames poolSize d lm
  | outside _ hsame ih => exact ih.congr hsame
  | call c _ hc hrun ih => exact (call_frames ih hc).ok rfl hrun

/-- Page table, frame ids, pins, `free_list_` and replacer agree, and `find_victim_page` is right about pins. -/
structure FrameAccounting (s : BufferPoolManager) : Prop where
  injective : ∀ pageId pageId' frame, s.pageTable pageId = some frame → s.pageTable pageId' = some frame →
    pageId = pageId'
  own_id : ∀ pageId frame, s.pageTable pageId = some frame → frame < s.poolSize ∧ (s.pages frame).id = pageId
  in_table : ∀ frame < s.poolSize, (s.pages frame).id.pageNo ≠ invalidPageId →
    s.pageTable (s.pages frame).id = some frame
  not_free : ∀ frame, 0 < (s.pages frame).pinCount → frame ∉ s.freeList
  not_evictable : ∀ frame, 0 < (s.pages frame).pinCount → frame ∉ s.replacer.lruList
  free_nodup : s.freeList.Nodup
  victim : ∀ frame s', findVictimPage.run s = (.ok (some frame), s') → (s.pages frame).pinCount = 0
  no_victim : ∀ s', findVictimPage.run s = (.ok none, s') → ∀ frame < s.poolSize, 0 < (s.pages frame).pinCount

/-- The frames are accounted for in every pool that is reached. -/
theorem Reach.frameAccounting {poolSize : Nat} {s : BufferPoolManager} (hs : Reach poolSize s) : FrameAccounting s := by
  have h := hs.frames
  have hown : ∀ pageId frame, s.pageTable pageId = some frame → frame < s.poolSize ∧ (s.pages frame).id = pageId := by
    intro pageId frame ht
    obtain ⟨hlt, hid, -⟩ := (h.table pageId frame).1 ht
    exact ⟨hlt, hid⟩
  refine ⟨?_, hown, ?_, fun f hp => (h.not_mem_of_pinned hp).1, fun f hp => (h.not_mem_of_pinned hp).2, h.free_nodup,
    ?_, ?_⟩
  · intro p p' frame hp hp'
    exact (hown p frame hp).2.symm.trans (hown p' frame hp').2
  · intro frame hlt hno
    exact (h.table _ frame).2 ⟨hlt, rfl, hno⟩
  · intro frame s' hrun
    obtain ⟨htaken, heq⟩ := (findVictimPage_frames h).ok rfl hrun
    have hpin := (htaken.taken frame rfl).2.1
    rw [heq] at hpin
    exact hpin
  · intro s' hrun
    obtain ⟨-, hall⟩ := (findVictimPage_frames h).ok rfl hrun
    exact hall

/-- A directory with one file of one page, open as descriptor 3. -/
def onePageDisk : DiskManager where
  fd2pageno _ := 1
  fd2path fd := if fd = 3 then some "t" else none
  path2fd path := if path = "t" then some 3 else none
  files path := if path = "t" then some blankPage else none

/-- The pool of one frame after page 0 of that file was fetched. -/
def fetchedPool : BufferPoolManager := ((Call.fetchPage ⟨3, 0⟩).perform.run (new 1 onePageDisk none)).2

theorem Reach.frameAccounting_fetched :
    Reach 1 fetchedPool ∧ (fetchedPool.pages 0).pinCount = 1 ∧ FrameAccounting fetchedPool := by
  have hrun : ((Call.fetchPage ⟨3, 0⟩).perform.run (BufferPoolManager.new 1 onePageDisk none)).1 = .ok () := by
    decide +kernel
  have hreach : Reach 1 fetchedPool := by
    unfold fetchedPool
    exact .call (.fetchPage ⟨3, 0⟩) (.new onePageDisk none) trivial (Act.run_eq_of_fst hrun)
  exact ⟨hreach, by decide +kernel, hreach.frameAccounting⟩

/-! ## A page read that fails -/

/-- The frames that `find_victim_page` could choose. -/
def available (s : BufferPoolManager) : Nat :=
  ((List.range s.poolSize).filter fun frame => frame ∈ s.freeList ∨ frame ∈ s.replacer.lruList).length

/-- The pool after a `fetch_page` that threw is as good as before. -/
structure LeftUnchanged (s : BufferPoolManager) (pageId : PageId) (s' : BufferPoolManager) : Prop where
  uncached : s'.pageTable pageId = none
  no_page : ∀ frame s'', (fetchPage pageId).run s' ≠ (.ok (some frame), s'')
  available : s'.available = s.available

/-- What `read_page` throws beyond the end of a file. -/
def readPageError : RMDBError := .internal "DiskManager::read_page Error"

/-- A write that fails throws another error. -/
theorem writeIfDirty_error (frame : Nat) :
    Act.Triple (fun _ => True) (writeIfDirty frame) (fun _ _ => True) (fun e _ => e ≠ readPageError) := by
  apply Act.Triple.of_eq
  intro s _
  unfold writeIfDirty writeBack
  apply Act.Triple.get_bind
  split
  · apply Act.Triple.get_bind
    apply Act.Triple.modify_bind
    split
    · next e he =>
      apply Act.Triple.throw_eq
      rintro rfl
      unfold DiskManager.writePage DiskManager.lseek at he
      split at he
      · split at he <;> cases he
      · cases he
    · exact Act.Triple.modify_eq trivial
  · exact Act.Triple.pure_eq trivial

theorem valid_of_readPage {d : DiskManager} {pageId : PageId}
    (h : d.readPage pageId.fd pageId.pageNo = .error readPageError) : pageId.pageNo ≠ invalidPageId := by
  unfold DiskManager.readPage DiskManager.lseek at h
  split at h
  · next hno =>
    unfold invalidPageId
    omega
  · cases h

/-- After `update_page` the page is in the page table, in a frame with none of its bytes. -/
theorem updatePage_table (pageId : PageId) (frame : Nat) :
    Act.Triple (fun _ => True) (updatePage pageId frame) (fun _ t => pageId.pageNo ≠ invalidPageId →
      t.pageTable pageId = some frame ∧ (t.pages frame).data = blankPage) (fun e _ => e ≠ readPageError) := by
  unfold updatePage
  apply Act.Triple.bind (writeIfDirty_error frame)
  intro _
  apply Act.Triple.modify
  intro t _ hno
  simp [replacePage, setPage, hno]

theorem findVictimPage_noThrow :
    Act.Triple (fun _ => True) findVictimPage (fun _ _ => True) (fun _ _ => False) := by
  apply Act.Triple.of_eq
  intro s _
  unfold findVictimPage
  apply Act.Triple.get_bind
  split
  · exact Act.Triple.modify_bind (Act.Triple.pure_eq trivial)
  · split
    · exact Act.Triple.modify_bind (Act.Triple.pure_eq trivial)
    · exact Act.Triple.pure_eq trivial

/-- A read that fails leaves the page in the page table, in a frame with none of its bytes. -/
theorem fetchPage_readPageError (pageId : PageId) :
    Act.Triple (fun _ => True) (fetchPage pageId) (fun _ _ => True) (fun e s' => e = readPageError →
      ∃ frame, s'.pageTable pageId = some frame ∧ (s'.pages frame).data = blankPage) := by
  apply Act.Triple.of_eq
  intro s _
  unfold fetchPage
  apply Act.Triple.get_bind
  split
  · exact Act.Triple.modify_bind (Act.Triple.pure_eq trivial)
  · apply Act.Triple.bind (findVictimPage_noThrow.conseq (fun _ _ => trivial) (fun _ _ => id) fun _ _ => False.elim)
    intro victim
    cases victim with
    | none => exact Act.Triple.pure fun _ _ => trivial
    | some frame =>
      apply Act.Triple.bind ((updatePage_table pageId frame).conseq (fun _ => id) (fun _ _ => id)
        fun _ _ hne he => absurd he hne)
      intro _
      apply Act.Triple.of_eq
      intro t ht
      apply Act.Triple.get_bind
      split
      · next e he =>
        apply Act.Triple.throw_eq
        rintro rfl
        exact ⟨frame, ht (valid_of_readPage he)⟩
      · exact Act.Triple.modify_bind (Act.Triple.modify_bind (Act.Triple.pure_eq trivial))

/-- A cached page is returned, whatever its bytes. -/
theorem fetchPage_cached {s : BufferPoolManager} {pageId : PageId} {frame : Nat}
    (h : s.pageTable pageId = some frame) : (fetchPage pageId).run s =
      (.ok (some frame), (s.pin frame).setPinCount frame ((s.pages frame).pinCount + 1)) := by
  unfold fetchPage
  rw [Act.run_bind_of_ok (Act.run_get s)]
  simp only [h]
  exact Act.run_bind_of_ok (Act.run_modify _ s)

/-- The next `fetch_page` returns the blank frame as the page. -/
theorem fetchPage_after_readPageError {s s' : BufferPoolManager} {pageId : PageId}
    (h : (fetchPage pageId).run s = (.error readPageError, s')) :
    ∃ frame s'', (fetchPage pageId).run s' = (.ok (some frame), s'') ∧ (s''.pages frame).data = blankPage := by
  obtain ⟨frame, ht, hdata⟩ := (fetchPage_readPageError pageId).error trivial h rfl
  exact ⟨frame, _, fetchPage_cached ht, by simpa [setPinCount, setPage, pin] using hdata⟩

/-- Every `fetch_page` whose read fails leaves the pool changed. -/
theorem fetchPage_not_leftUnchanged {s s' : BufferPoolManager} {pageId : PageId}
    (h : (fetchPage pageId).run s = (.error readPageError, s')) : ¬LeftUnchanged s pageId s' := by
  intro hunchanged
  obtain ⟨frame, s'', hagain, -⟩ := fetchPage_after_readPageError h
  exact hunchanged.no_page frame s'' hagain

/-- The page behind the end of the file. -/
theorem run_fetchPage_beyond : (fetchPage ⟨3, 1⟩).run (new 1 onePageDisk none) =
    (.error readPageError, ((fetchPage ⟨3, 1⟩).run (new 1 onePageDisk none)).2) :=
  Act.run_eq_of_fst (by decide +kernel)

theorem fetchPage_not_leftUnchanged_beyond :
    ¬LeftUnchanged (new 1 onePageDisk none) ⟨3, 1⟩ ((fetchPage ⟨3, 1⟩).run (new 1 onePageDisk none)).2 :=
  fetchPage_not_leftUnchanged run_fetchPage_beyond

theorem not_leftUnchanged_of_readPageError : ¬∀ (poolSize : Nat) (s s' : BufferPoolManager) (pageId : PageId),
    Reach poolSize s → (fetchPage pageId).run s = (.error readPageError, s') → LeftUnchanged s pageId s' := by
  intro h
  have hunchanged := h 1 _ _ ⟨3, 1⟩ (.new onePageDisk none) run_fetchPage_beyond
  obtain ⟨frame, ht, -⟩ := (fetchPage_readPageError ⟨3, 1⟩).error trivial run_fetchPage_beyond rfl
  rw [hunchanged.uncached] at ht
  cases ht

end BufferPoolManager

end Rmdb
