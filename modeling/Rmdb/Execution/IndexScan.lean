import Rmdb.Execution.KeyInterval
import Rmdb.Index.RangeScan
import Rmdb.Record.ScanOrder

/-!
# Index scans and sequential scans

- `IxCall.onTree` and `IndexedTable.handle`: the calls of an executor on a table whose index is a B+ tree;
- `Stands`: what a scan has still to deliver, for both kinds of scans; `find_next_valid` and the loop around it deliver
  the records of it that meet the conditions (`answers_findNextValid`, `answers_collect`);
- `stands_rm` and `stands_ix`: what the two scans have to deliver.
-/

namespace Rmdb

open Lib

/-! ## Calls on a tree -/

/-- The key that the bytes of a buffer are. -/
def ExactCols.keyOf (S : ExactCols) (buf : Bytes) : Option S.Key :=
  if h : keyLen S.cols ≤ buf.length then some ⟨buf.take (keyLen S.cols), List.length_take_of_le h⟩ else none

theorem ExactCols.keyOf_val {S : ExactCols} (key : S.Key) : S.keyOf key.1 = some key := by
  unfold keyOf
  rw [dif_pos (Nat.le_of_eq key.2.symm)]
  exact congrArg some (Subtype.ext (List.take_of_length_le (Nat.le_of_eq key.2)))

namespace IxCall

variable {S : ExactCols}

/-- A call with a key; a buffer that is too short is overrun. -/
def withKey {α : Type} (buf : Bytes) (x : S.Key → IxM S.Key α) : IxM S.Key α :=
  match S.keyOf buf with
  | some key => x key
  | none => Act.throw .overrun

/-- The call of an executor, on a tree. -/
def onTree (fuel : Nat) : (c : IxCall) → IxM S.Key c.Resp
  | .getValue key => withKey key fun key => IxIndexHandle.getValue fuel key
  | .insertEntry key rid => withKey key fun key => do
    let _ ← IxIndexHandle.insertEntry fuel key rid
  | .deleteEntry key => withKey key fun key => IxIndexHandle.deleteEntry fuel key
  | .lowerBound key => withKey key fun key => IxIndexHandle.lowerBound fuel key
  | .upperBound key => withKey key fun key => IxIndexHandle.upperBound fuel key
  | .scanNext iid => IxIndexHandle.scanStep iid
  | .getRid iid => IxIndexHandle.getRid iid

theorem withKey_val {α : Type} (key : S.Key) (x : S.Key → IxM S.Key α) : withKey key.1 x = x key := by
  simp only [withKey, ExactCols.keyOf_val]

end IxCall

/-- What a fault is for a statement: an error that is raised, or the end of the process. -/
def Exn.ofFault : Fault → Exn
  | .thrown e => .rmdb e
  | _ => .halt

/-- A table with an index. -/
structure IndexedTable (S : ExactCols) where
  tab : TabMeta
  file : RmFile
  index : IxIndexHandle S.Key

namespace IndexedTable

variable {S : ExactCols}

/-- The calls of a scan; the lock is granted. -/
def handle (fuel : Nat) : (c : Call) → IndexedTable S → Except Exn c.Resp × IndexedTable S
  | .lockSharedOnTable _, w => (.ok (), w)
  | .getTable t, w => (if t = w.tab.name then .ok w.tab else .error (.rmdb (.tableNotFound t)), w)
  | .fileHdr _, w => (.ok w.file.fileHdr, w)
  | .fetchPageHandle _ pageNo, w => ((w.file.fetchPageHandle pageNo).mapError .rmdb, w)
  | .getRecord _ rid, w => ((w.file.getRecord rid).mapError .rmdb, w)
  | .index _ _ c, w =>
    let (res, index) := (c.onTree fuel).run w.index
    (res.mapError Exn.ofFault, { w with index := index })
  | _, w => (.error .halt, w)

/-- The table has these contents; pins and pages that were touched do not matter. -/
def Has (tab : TabMeta) (f : RmFile) (g : IxFile S.Key) (w : IndexedTable S) : Prop :=
  w.tab = tab ∧ w.file = f ∧ IxIndexHandle.Shows w.index g

end IndexedTable

/-! ## Ends of an interval -/

section interval
variable {S : ExactCols} {low high k : S.Key} {i : Bool}

theorem beforeLow_iff : IxIndexHandle.BeforeLow low i k ↔ ¬Before (ixCompare S.cols low.1 k.1) i := by
  have hflip := ExactCols.ordered_cmp.flip low k trivial trivial
  have hflip' := ExactCols.ordered_cmp.flip k low trivial trivial
  have hlt : k < low ↔ ExactCols.cmp k low < 0 := Iff.rfl
  have heq := ExactCols.cmp_eq_zero_iff (a := low) (b := k)
  have hcmp : ixCompare S.cols low.1 k.1 = ExactCols.cmp low k := rfl
  rw [IxIndexHandle.BeforeLow, Before, hcmp, hlt, eq_comm (a := k), ← heq]
  cases i <;> simp <;> omega

theorem upToHigh_iff : IxIndexHandle.UpToHigh high i k ↔ Before (-ixCompare S.cols high.1 k.1) i := by
  have hflip := ExactCols.ordered_cmp.flip high k trivial trivial
  have hflip' := ExactCols.ordered_cmp.flip k high trivial trivial
  have hlt : k < high ↔ ExactCols.cmp k high < 0 := Iff.rfl
  have heq := ExactCols.cmp_eq_zero_iff (a := high) (b := k)
  have hcmp : ixCompare S.cols high.1 k.1 = ExactCols.cmp high k := rfl
  rw [IxIndexHandle.UpToHigh, Before, hcmp, hlt, eq_comm (a := k), ← heq]
  cases i <;> simp <;> omega

end interval

open IndexedTable Exec

section calls
variable {S : ExactCols} {fuel : Nat} {tab : TabMeta} {f : RmFile} {g : IxFile S.Key} {t : TabName} {ix : IndexMeta}

/-- What a statement finds out about the table. -/
abbrev Gives {α : Type} (fuel : Nat) (tab : TabMeta) (f : RmFile) (g : IxFile S.Key) (x : Exec α)
    (r : Except Exn α) : Prop := Prog.Answers (handle (S := S) fuel) (Has tab f g) x r

theorem gives_lockSharedOnTable : Gives fuel tab f g (lockSharedOnTable t) (.ok ()) :=
  Prog.Answers.perform fun w hw => ⟨w, rfl, hw⟩

theorem gives_getTable : Gives fuel tab f g (getTable tab.name) (.ok tab) :=
  Prog.Answers.perform fun w hw => ⟨w, by simp [handle, hw.1]; rfl, hw⟩

theorem gives_fileHdr : Gives fuel tab f g (fileHdr t) (.ok f.fileHdr) :=
  Prog.Answers.perform fun w hw => ⟨w, by simp [handle, hw.2.1]; rfl, hw⟩

theorem gives_fetchPageHandle {p : Int} {page : RmPage} (h : f.fetchPageHandle p = .ok page) :
    Gives fuel tab f g (fetchPageHandle t p) (.ok page) :=
  Prog.Answers.perform fun w hw => ⟨w, by simp [handle, hw.2.1, h, Except.mapError]; rfl, hw⟩

theorem gives_getRecord {rid : Rid} {b : Bytes} (h : f.getRecord rid = .ok b) :
    Gives fuel tab f g (getRecord t rid) (.ok b) :=
  Prog.Answers.perform fun w hw => ⟨w, by simp [handle, hw.2.1, h, Except.mapError]; rfl, hw⟩

/-- A call on the index. -/
theorem gives_index {c : IxCall} {a : c.Resp} (h : IxIndexHandle.LeadsTo (c.onTree fuel) g a g) :
    Gives fuel tab f g (invoke (.index t ix c)) (.ok a) := by
  refine Prog.Answers.perform fun w hw => ?_
  obtain ⟨s, hr, hs⟩ := h w.index hw.2.2
  exact ⟨{ w with index := s }, by simp only [handle, hr, Except.mapError], hw.1, hw.2.1, hs⟩

/-- A call on the index that fails. -/
theorem raises_index {c : IxCall} {e : RMDBError} (h : ∀ s, IxIndexHandle.Shows s g →
    ∃ s', (c.onTree fuel).run s = (.error (.thrown e), s') ∧ IxIndexHandle.Shows s' g) :
    Gives fuel tab f g (invoke (.index t ix c)) (.error (.rmdb e)) := by
  refine Prog.Answers.perform fun w hw => ?_
  obtain ⟨s, hr, hs⟩ := h w.index hw.2.2
  exact ⟨{ w with index := s }, by simp only [handle, hr, Except.mapError, Exn.ofFault], hw.1, hw.2.1, hs⟩

theorem gives_lowerBound {key : S.Key} {iid : Iid}
    (h : IxIndexHandle.LeadsTo (IxIndexHandle.lowerBound fuel key) g iid g) :
    Gives fuel tab f g (lowerBound t ix key.1) (.ok iid) := by
  have heq : (IxCall.lowerBound key.1).onTree fuel = IxIndexHandle.lowerBound fuel key := IxCall.withKey_val key _
  exact gives_index (c := .lowerBound key.1) (heq ▸ h)

theorem gives_upperBound {key : S.Key} {iid : Iid}
    (h : IxIndexHandle.LeadsTo (IxIndexHandle.upperBound fuel key) g iid g) :
    Gives fuel tab f g (upperBound t ix key.1) (.ok iid) := by
  have heq : (IxCall.upperBound key.1).onTree fuel = IxIndexHandle.upperBound fuel key := IxCall.withKey_val key _
  exact gives_index (c := .upperBound key.1) (heq ▸ h)

theorem gives_check {α : Type} {x : Except RMDBError α} {a : α} (h : x = .ok a) : Gives fuel tab f g (check x) (.ok a) := by
  subst h
  exact Prog.Answers.ret

end calls

/-! ## What a scan has to deliver -/

namespace ScanExecutor

/-- The executor at a position of its scan, with a `rid_`. -/
def atPos (ex : ScanExecutor) (pos : RecScan) (rid : Rid) : ScanExecutor := { ex with scan := some pos, rid := rid }

section stands
variable {S : ExactCols} (fuel : Nat) (tab : TabMeta) (f : RmFile) (g : IxFile S.Key) (ex : ScanExecutor)
  (last : Option RMDBError)

/-- The scan is going to deliver these records. Then it is at its end, or fails. -/
def Stands : RecScan → List Rid → Prop
  | pos, [] => ∀ rid, match last with
    | none => Gives fuel tab f g (ex.atPos pos rid).isEnd (.ok true)
    | some e => Gives fuel tab f g (ex.atPos pos rid).isEnd (.ok false) ∧
      Gives fuel tab f g (ex.atPos pos rid).scanRid (.error (.rmdb e))
  | pos, r :: rs => (∀ rid, Gives fuel tab f g (ex.atPos pos rid).isEnd (.ok false) ∧
      Gives fuel tab f g (ex.atPos pos rid).scanRid (.ok r)) ∧
    ∃ pos', (∀ rid, Gives fuel tab f g ((ex.atPos pos rid).scanNext fuel) (.ok (ex.atPos pos' rid))) ∧ Stands pos' rs

end stands

theorem filter_dropWhile_not {α : Type} (ok : α → Bool) : ∀ l : List α,
    (l.dropWhile fun a => !ok a).filter ok = l.filter ok
  | [] => rfl
  | a :: l => by
    cases ha : ok a with
    | true => simp [ha]
    | false => simpa [ha] using filter_dropWhile_not ok l

section loops
variable {S : ExactCols} {fuel : Nat} {tab : TabMeta} {f : RmFile} {g : IxFile S.Key} {ex : ScanExecutor}
  {last : Option RMDBError} {pos : RecScan} {rids : List Rid} {ok : Rid → Bool}

/-- The records can be read, and these are the ones that meet the conditions. -/
def Selects (f : RmFile) (ex : ScanExecutor) (ok : Rid → Bool) (rids : List Rid) : Prop :=
  ∀ rid ∈ rids, ∃ b, f.getRecord rid = .ok b ∧ evalConds ex.cols ex.conds b = .ok (ok rid)

section step
variable {r : Rid} {n : Nat} {res : Except Exn ScanExecutor}
  (hhere : ∀ rid, Gives fuel tab f g (ex.atPos pos rid).isEnd (.ok false) ∧
    Gives fuel tab f g (ex.atPos pos rid).scanRid (.ok r))
  (hok : ∃ b, f.getRecord r = .ok b ∧ evalConds ex.cols ex.conds b = .ok (ok r))
include hhere hok

/-- A round that finds a record. -/
theorem answers_round_found (hr : ok r = true) (rid : Rid) :
    Gives fuel tab f g (findNextValid fuel (n + 1) (ex.atPos pos rid)) (.ok (ex.atPos pos r)) := by
  obtain ⟨b, hb, hconds⟩ := hok
  refine (hhere rid).1.bind ((hhere rid).2.bind ((gives_getRecord hb).bind ((gives_check hconds).bind ?_)))
  rw [hr]
  exact Prog.Answers.ret

/-- A round that goes on. -/
theorem answers_round_next {pos' : RecScan} (hr : ok r = false)
    (hnext : ∀ rid, Gives fuel tab f g ((ex.atPos pos rid).scanNext fuel) (.ok (ex.atPos pos' rid)))
    (h : Gives fuel tab f g (findNextValid fuel n (ex.atPos pos' r)) res) (rid : Rid) :
    Gives fuel tab f g (findNextValid fuel (n + 1) (ex.atPos pos rid)) res := by
  obtain ⟨b, hb, hconds⟩ := hok
  refine (hhere rid).1.bind ((hhere rid).2.bind ((gives_getRecord hb).bind ((gives_check hconds).bind ?_)))
  rw [hr]
  exact (hnext r).bind h

end step

/-- `find_next_valid` goes on to the first record that meets the conditions. -/
theorem answers_findNextValid (h : Stands fuel tab f g ex none pos rids) (hok : Selects f ex ok rids) (rid : Rid)
    {n : Nat} (hn : rids.length < n) : ∃ pos' rid',
    Gives fuel tab f g (findNextValid fuel n (ex.atPos pos rid)) (.ok (ex.atPos pos' rid')) ∧
      Stands fuel tab f g ex none pos' (rids.dropWhile fun r => !ok r) ∧
      ∀ r rs, rids.dropWhile (fun r => !ok r) = r :: rs → rid' = r := by
  induction rids generalizing pos rid n with
  | nil =>
    obtain ⟨m, rfl⟩ : ∃ m, n = m + 1 := ⟨n - 1, by simp at hn; omega⟩
    exact ⟨pos, rid, (h rid).bind Prog.Answers.ret, h, by simp⟩
  | cons r rs ih =>
    obtain ⟨m, rfl⟩ : ∃ m, n = m + 1 := ⟨n - 1, by simp at hn; omega⟩
    obtain ⟨hhere, pos', hnext, hrest⟩ := h
    have hr := hok r List.mem_cons_self
    cases hokr : ok r with
    | true =>
      have hdrop : (r :: rs).dropWhile (fun r => !ok r) = r :: rs := by simp [hokr]
      rw [hdrop]
      refine ⟨pos, r, answers_round_found hhere hr hokr rid, ⟨hhere, pos', hnext, hrest⟩, ?_⟩
      exact fun r' rs' heq => (List.cons.inj heq).1
    | false =>
      have hdrop : (r :: rs).dropWhile (fun r => !ok r) = rs.dropWhile fun r => !ok r := by simp [hokr]
      rw [hdrop]
      obtain ⟨pos₁, rid₁, hgive, hstand⟩ := ih hrest (fun q hq => hok q (List.mem_cons_of_mem _ hq)) r (n := m)
        (by simpa using hn)
      exact ⟨pos₁, rid₁, answers_round_next hhere hr hokr hnext hgive rid, hstand⟩

/-- Where no record meets the conditions, it runs on to the end of the scan, and fails there. -/
theorem raises_findNextValid {e : RMDBError} (h : Stands fuel tab f g ex (some e) pos rids) (hok : Selects f ex ok rids)
    (hnone : ∀ r ∈ rids, ok r = false) (rid : Rid) {n : Nat} (hn : rids.length < n) :
    Gives fuel tab f g (findNextValid fuel n (ex.atPos pos rid)) (.error (.rmdb e)) := by
  induction rids generalizing pos rid n with
  | nil =>
    obtain ⟨m, rfl⟩ : ∃ m, n = m + 1 := ⟨n - 1, by simp at hn; omega⟩
    exact (h rid).1.bind (h rid).2.bind_error
  | cons r rs ih =>
    obtain ⟨m, rfl⟩ : ∃ m, n = m + 1 := ⟨n - 1, by simp at hn; omega⟩
    obtain ⟨hhere, pos', hnext, hrest⟩ := h
    refine answers_round_next hhere (hok r List.mem_cons_self) (hnone r List.mem_cons_self) hnext ?_ rid
    exact ih hrest (fun q hq => hok q (List.mem_cons_of_mem _ hq)) (fun q hq => hnone q (List.mem_cons_of_mem _ hq)) r
      (by simpa using hn)

/-- The loop that collects the rids, from a record that meets the conditions or from the end. -/
theorem answers_collect {n : Nat} : ∀ {rids : List Rid} {pos : RecScan} {rid : Rid} (read : List Rid),
    Stands fuel tab f g ex none pos rids → Selects f ex ok rids → (∀ r rs, rids = r :: rs → ok r = true ∧ rid = r) →
    rids.length < n → rids.length < fuel →
    Gives fuel tab f g ((ex.atPos pos rid).collect fuel n read) (.ok (read ++ rids.filter ok)) := by
  induction n with
  | zero => exact fun _ _ _ _ hn _ => absurd hn (Nat.not_lt_zero _)
  | succ n ih =>
    intro rids pos rid read h hok hat hn hfuel
    cases rids with
    | nil =>
      have hend : Gives fuel tab f g (ex.atPos pos rid).isEnd (.ok true) := h rid
      simp only [List.filter_nil, List.append_nil]
      exact hend.bind Prog.Answers.ret
    | cons r rs =>
      obtain ⟨hokr, rfl⟩ := hat r rs rfl
      obtain ⟨hhere, pos', hnext, hrest⟩ := h
      have hoks : Selects f ex ok rs := fun q hq => hok q (List.mem_cons_of_mem _ hq)
      rw [List.length_cons] at hn hfuel
      obtain ⟨pos₁, rid₁, hgive, hstand, hfirst⟩ := answers_findNextValid hrest hoks rid (n := fuel) (by omega)
      have hlen : (rs.dropWhile fun r => !ok r).length ≤ rs.length := (List.dropWhile_sublist _).length_le
      have hsub : Selects f ex ok (rs.dropWhile fun r => !ok r) := fun q hq =>
        hoks q ((List.dropWhile_sublist _).subset hq)
      have hloop := ih (read ++ [rid]) hstand hsub (fun q qs heq => ⟨?_, hfirst q qs heq⟩) (by omega) (by omega)
      · have hfilter : read ++ (rid :: rs).filter ok = (read ++ [rid]) ++ (rs.dropWhile fun r => !ok r).filter ok := by
          rw [List.filter_cons_of_pos hokr, filter_dropWhile_not, List.append_assoc]
          rfl
        rw [hfilter]
        exact (hhere rid).1.bind (((hnext rid).bind hgive).bind hloop)
      · have hhead := List.head?_dropWhile_not (fun r => !ok r) rs
        rw [heq] at hhead
        simpa using hhead

/-- What an executor collects whose scan is going to deliver these records. -/
theorem answers_scanRids {plan : ScanPlan} (hnew : Gives fuel tab f g plan.executor (.ok ex))
    (hstart : Gives fuel tab f g (ex.start fuel) (.ok { ex with scan := some pos }))
    (h : Stands fuel tab f g ex none pos rids) (hok : Selects f ex ok rids) (hfuel : rids.length < fuel) :
    Gives fuel tab f g (scanRids fuel plan) (.ok (rids.filter ok)) := by
  obtain ⟨pos', rid', hfind, hstand, hfirst⟩ := answers_findNextValid h hok ex.rid hfuel
  have hlen : (rids.dropWhile fun r => !ok r).length ≤ rids.length := (List.dropWhile_sublist _).length_le
  have hloop := answers_collect (n := fuel) [] hstand (fun q hq => hok q ((List.dropWhile_sublist _).subset hq))
    (fun q qs heq => ⟨?_, hfirst q qs heq⟩) (by omega) (by omega)
  · rw [filter_dropWhile_not] at hloop
    exact hnew.bind ((gives_lockSharedOnTable.bind (hstart.bind hfind)).bind hloop)
  · have hhead := List.head?_dropWhile_not (fun r => !ok r) rids
    rw [heq] at hhead
    simpa using hhead

/-- The scan that fails at its end. -/
theorem raises_scanRids {plan : ScanPlan} {e : RMDBError} (hnew : Gives fuel tab f g plan.executor (.ok ex))
    (hstart : Gives fuel tab f g (ex.start fuel) (.ok { ex with scan := some pos }))
    (h : Stands fuel tab f g ex (some e) pos rids) (hok : Selects f ex ok rids) (hnone : ∀ r ∈ rids, ok r = false)
    (hfuel : rids.length < fuel) : Gives fuel tab f g (scanRids fuel plan) (.error (.rmdb e)) := by
  have hfind := raises_findNextValid h hok hnone ex.rid hfuel
  exact hnew.bind (gives_lockSharedOnTable.bind (hstart.bind hfind)).bind_error

end loops

/-! ## The scan of the file -/

section file
variable {S : ExactCols} {fuel : Nat} {tab : TabMeta} {f : RmFile} {g : IxFile S.Key} {ex : ScanExecutor} {t : TabName}

/-- `RmScan::next`, page after page. -/
theorem answers_rmScanNext (hf : f.Ready) {n : Nat} : ∀ {rid : Rid}, 1 ≤ rid.pageNo → -1 ≤ rid.slotNo →
    rid.slotNo < f.fileHdr.numRecordsPerPage → f.fileHdr.numPages - rid.pageNo < n →
    ∃ rid', Gives fuel tab f g (rmScanNext t (n + 1) rid) (.ok rid') ∧ f.NextOf rid rid' := by
  induction n with
  | zero =>
    intro rid h1 h0 hs hn
    have hend : ¬rid.pageNo < f.fileHdr.numPages := by omega
    refine ⟨rid, gives_fileHdr.bind ?_, .at_end (by omega)⟩
    rw [if_neg hend]
    exact Prog.Answers.ret
  | succ n ih =>
    intro rid h1 h0 hs hn
    by_cases hend : rid.pageNo < f.fileHdr.numPages
    · obtain ⟨page, hpage⟩ := hf.page rid.pageNo h1 hend
      have hfetch : f.fetchPageHandle rid.pageNo = .ok page :=
        RmFile.fetchPageHandle_eq_ok.2 ⟨by omega, hend, hpage⟩
      by_cases hslot : page.bitmap.nextBit true f.fileHdr.numRecordsPerPage rid.slotNo < f.fileHdr.numRecordsPerPage
      · refine ⟨_, gives_fileHdr.bind ?_, .found h1 hfetch hs h0 hslot⟩
        rw [if_pos hend]
        refine (gives_fetchPageHandle hfetch).bind ?_
        rw [if_pos hslot]
        exact Prog.Answers.ret
      · have hpos := hf.perPage
        obtain ⟨rid', hnext, hof⟩ : ∃ rid', Gives fuel tab f g (rmScanNext t (n + 1) ⟨rid.pageNo + 1, -1⟩) (.ok rid') ∧
            f.NextOf ⟨rid.pageNo + 1, -1⟩ rid' :=
          ih (by dsimp only; omega) (by dsimp only; omega) (by dsimp only; omega) (by dsimp only; omega)
        refine ⟨rid', gives_fileHdr.bind ?_, .skip h1 hfetch hs hslot hof⟩
        rw [if_pos hend]
        refine (gives_fetchPageHandle hfetch).bind ?_
        rw [if_neg hslot]
        exact hnext
    · refine ⟨rid, gives_fileHdr.bind ?_, .at_end (by omega)⟩
      rw [if_neg hend]
      exact Prog.Answers.ret

variable {rid : Rid}

theorem stands_rm_end (h : f.fileHdr.numPages ≤ rid.pageNo) : Stands fuel tab f g ex none (.rm rid) [] := by
  refine fun _ => gives_fileHdr.bind ?_
  rw [decide_eq_true h]
  exact Prog.Answers.ret

theorem stands_rm_here (h : rid.pageNo < f.fileHdr.numPages) {r : Rid} :
    Gives fuel tab f g (ex.atPos (.rm rid) r).isEnd (.ok false) ∧
      Gives fuel tab f g (ex.atPos (.rm rid) r).scanRid (.ok rid) := by
  refine ⟨gives_fileHdr.bind ?_, Prog.Answers.ret⟩
  rw [decide_eq_false (Int.not_le.2 h)]
  exact Prog.Answers.ret

section ready
variable (hf : f.Ready) (hfuel : f.fileHdr.numPages < fuel)
include hf hfuel

/-- A step from a slot of the file. -/
theorem exists_scanNext_rm (hin : f.InSlots rid) : ∃ rid', f.NextOf rid rid' ∧
    ∀ r, Gives fuel tab f g ((ex.atPos (.rm rid) r).scanNext fuel) (.ok (ex.atPos (.rm rid') r)) := by
  obtain ⟨n, rfl⟩ : ∃ n, fuel = n + 1 := ⟨fuel - 1, by have := hf.numPages; omega⟩
  obtain ⟨h1, h0, hs⟩ := hin
  obtain ⟨rid', hnext, hof⟩ := answers_rmScanNext hf h1 (by omega) hs (n := n) (by omega)
  exact ⟨rid', hof, fun r => hnext.bind Prog.Answers.ret⟩

/-- From a record, the scan of the file delivers this record and the ones behind it. -/
theorem stands_rm : ∀ {B A : List Rid} {rid : Rid}, f.rids = A ++ rid :: B →
    Stands fuel tab f g ex none (.rm rid) (rid :: B) := by
  intro B
  induction B with
  | nil =>
    intro A rid hs
    obtain ⟨hin, hp⟩ := RmFile.inSlots_of_view (RmFile.mem_rids.1 (hs ▸ List.mem_append_right A List.mem_cons_self))
    obtain ⟨rid', hof, hnext⟩ := exists_scanNext_rm hf hfuel hin
    rcases hof.of_split hs with ⟨-, hend⟩ | ⟨B', hB, -⟩
    · exact ⟨fun r => stands_rm_here hp, .rm rid', hnext, stands_rm_end hend⟩
    · cases hB
  | cons q B ih =>
    intro A rid hs
    obtain ⟨hin, hp⟩ := RmFile.inSlots_of_view (RmFile.mem_rids.1 (hs ▸ List.mem_append_right A List.mem_cons_self))
    obtain ⟨rid', hof, hnext⟩ := exists_scanNext_rm hf hfuel hin
    rcases hof.of_split hs with ⟨hB, -⟩ | ⟨B', hB, -⟩
    · cases hB
    · obtain ⟨rfl, rfl⟩ := List.cons.inj hB
      have hs' : f.rids = (A ++ [rid]) ++ q :: B := by rw [hs, List.append_assoc]; rfl
      exact ⟨fun r => stands_rm_here hp, .rm q, hnext, ih hs'⟩

/-- `scan_ = ...` of a sequential scan: all records are to come. -/
theorem exists_start_rm (hindex : ex.index = none) : ∃ pos,
    Gives fuel tab f g (ex.start fuel) (.ok { ex with scan := some pos }) ∧
      Stands fuel tab f g ex none pos f.rids := by
  obtain ⟨n, rfl⟩ : ∃ n, fuel = n + 1 := ⟨fuel - 1, by have := hf.numPages; omega⟩
  have hpos := hf.perPage
  obtain ⟨rid', hnext, hof⟩ : ∃ rid', Gives (n + 1) tab f g (rmScanNext ex.tabName (n + 1) ⟨rmFirstRecordPage, -1⟩)
      (.ok rid') ∧ f.NextOf ⟨rmFirstRecordPage, -1⟩ rid' :=
    answers_rmScanNext hf (by decide) (by decide) (by dsimp only; omega)
      (by have : rmFirstRecordPage = 1 := rfl; dsimp only; omega)
  refine ⟨.rm rid', ?_, ?_⟩
  · unfold start
    rw [hindex]
    exact hnext.bind Prog.Answers.ret
  · rcases hof.of_start with ⟨hnil, hend⟩ | ⟨B, hB, -⟩
    · rw [hnil]
      exact stands_rm_end hend
    · rw [hB]
      exact stands_rm hf hfuel (A := []) hB

end ready

end file

/-! ## The scan of the index -/

section tree
variable {S : ExactCols} {fuel : Nat} {tab : TabMeta} {f : RmFile} {g : IxFile S.Key} {ex : ScanExecutor}
  {leaves : List Int} {ups : List (List Int)} {ix : IndexMeta} {iid last : Iid} {i j : Nat}

theorem gives_isEnd_ix (hne : iid ≠ last) (r : Rid) :
    Gives fuel tab f g (ex.atPos (.ix iid last) r).isEnd (.ok false) := by
  rw [← decide_eq_false hne]
  exact Prog.Answers.ret

variable (h : g.Tree leaves ups) (hix : ex.index = some ix)
include h hix

/-- The entry at the position. -/
theorem gives_scanRid_ix (hp : g.Place leaves i iid) (hi : i < (g.entries leaves).length) (r : Rid) :
    Gives fuel tab f g (ex.atPos (.ix iid last) r).scanRid (.ok (g.entries leaves)[i].2) := by
  have heq : (ex.atPos (.ix iid last) r).scanRid = getRid ex.tabName ix iid := by simp only [scanRid, atPos, hix]
  rw [heq]
  exact gives_index (c := .getRid iid) (h.leadsTo_getRid hp (List.getElem?_eq_getElem hi))

theorem exists_scanNext_ix (fuel : Nat) (tab : TabMeta) (f : RmFile) (last : Iid) (hp : g.Place leaves i iid)
    (hi : i < (g.entries leaves).length) : ∃ iid', g.Place leaves (i + 1) iid' ∧
      ∀ r, Gives fuel tab f g ((ex.atPos (.ix iid last) r).scanNext fuel) (.ok (ex.atPos (.ix iid' last) r)) := by
  obtain ⟨iid', hstep, hp'⟩ := h.leadsTo_scanStep hp hi
  refine ⟨iid', hp', fun r => ?_⟩
  have heq : (ex.atPos (.ix iid last) r).scanNext fuel = ixScanNext ex.tabName ix iid >>= fun iid =>
      pure { ex.atPos (.ix iid last) r with scan := some (.ix iid last) } := by
    simp only [scanNext, atPos, hix]
  rw [heq]
  exact (gives_index (c := .scanNext iid) hstep).bind Prog.Answers.ret

/-- Up to a later position. -/
theorem stands_ix (hl : g.Place leaves j last) {d : Nat} : ∀ {i : Nat} {iid : Iid}, g.Place leaves i iid → i + d = j →
    Stands fuel tab f g ex none (.ix iid last) ((((g.entries leaves).drop i).take d).map Prod.snd) := by
  have hn := (List.nodup_append.1 h.nodup).1
  induction d with
  | zero =>
    intro i iid hp hd
    obtain rfl : i = j := hd
    intro r
    rw [← decide_eq_true (hp.eq hl)]
    exact Prog.Answers.ret
  | succ d ih =>
    intro i iid hp hd
    have hj := hl.le
    have hi : i < (g.entries leaves).length := by omega
    have hne : iid ≠ last := by
      rintro rfl
      have := hp.unique hn hl
      omega
    obtain ⟨iid', hp', hnext⟩ := exists_scanNext_ix h hix fuel tab f last hp hi
    rw [List.drop_eq_getElem_cons hi, List.take_succ_cons, List.map_cons]
    exact ⟨fun r => ⟨gives_isEnd_ix hne r, gives_scanRid_ix h hix hp hi r⟩, .ix iid' last, hnext, ih hp' (by omega)⟩

/-- With the end behind the position, the scan runs past the last entry. -/
theorem stands_ix_inverted (hl : g.Place leaves j last) {d : Nat} : ∀ {i : Nat} {iid : Iid}, g.Place leaves i iid →
    j < i → i + d = (g.entries leaves).length →
    Stands fuel tab f g ex (some .indexEntryNotFound) (.ix iid last) (((g.entries leaves).drop i).map Prod.snd) := by
  have hn := (List.nodup_append.1 h.nodup).1
  have hne : ∀ {i : Nat} {iid : Iid}, g.Place leaves i iid → j < i → iid ≠ last := by
    rintro i iid hp hlt rfl
    have := hp.unique hn hl
    omega
  induction d with
  | zero =>
    intro i iid hp hlt hd
    obtain rfl : i = (g.entries leaves).length := hd
    rw [List.drop_length]
    refine fun r => ⟨gives_isEnd_ix (hne hp hlt) r, ?_⟩
    have heq : (ex.atPos (.ix iid last) r).scanRid = getRid ex.tabName ix iid := by simp only [scanRid, atPos, hix]
    rw [heq]
    exact raises_index (c := .getRid iid) fun s hs => h.run_getRid_end hp hs
  | succ d ih =>
    intro i iid hp hlt hd
    have hi : i < (g.entries leaves).length := by omega
    obtain ⟨iid', hp', hnext⟩ := exists_scanNext_ix h hix fuel tab f last hp hi
    rw [List.drop_eq_getElem_cons hi, List.map_cons]
    exact ⟨fun r => ⟨gives_isEnd_ix (hne hp hlt) r, gives_scanRid_ix h hix hp hi r⟩, .ix iid' last, hnext,
      ih hp' (by omega) (by omega)⟩

omit hix in
/-- The start of the interval. -/
theorem exists_lower {t : TabName} (hups : ups.length < fuel) (low : S.Key) (lowInclusive : Bool) : ∃ i iid,
    Gives fuel tab f g (if lowInclusive then lowerBound t ix low.1 else upperBound t ix low.1) (.ok iid) ∧
      g.Place leaves i iid ∧ Cut (fun e => IxIndexHandle.BeforeLow low lowInclusive e.1) (g.entries leaves) i := by
  obtain ⟨i, iid, hlow, hp, hcut⟩ := h.leadsTo_lower hups low lowInclusive
  refine ⟨i, iid, ?_, hp, hcut⟩
  cases lowInclusive with
  | true => exact gives_lowerBound hlow
  | false => exact gives_upperBound hlow

omit hix in
/-- The end of the interval. -/
theorem exists_upper {t : TabName} (hups : ups.length < fuel) (high : S.Key) (highInclusive : Bool) : ∃ j last,
    Gives fuel tab f g (if highInclusive then upperBound t ix high.1 else lowerBound t ix high.1) (.ok last) ∧
      g.Place leaves j last ∧ Cut (fun e => IxIndexHandle.UpToHigh high highInclusive e.1) (g.entries leaves) j := by
  obtain ⟨j, last, hhigh, hp, hcut⟩ := h.leadsTo_upper hups high highInclusive
  refine ⟨j, last, ?_, hp, hcut⟩
  cases highInclusive with
  | true => exact gives_upperBound hhigh
  | false => exact gives_lowerBound hhigh

/-- `scan_ = ...` of an index scan: between the ends of the interval. -/
theorem exists_start_ix (hups : ups.length < fuel) (hk : (keyInterval ex.conds ix).Sized S.cols) : ∃ i iid j last,
    Gives fuel tab f g (ex.start fuel) (.ok { ex with scan := some (.ix iid last) }) ∧
      g.Place leaves i iid ∧ g.Place leaves j last ∧
      Cut (fun e => ¬Before (ixCompare S.cols (keyInterval ex.conds ix).low e.1.1) (keyInterval ex.conds ix).lowInclusive)
        (g.entries leaves) i ∧
      Cut (fun e => Before (-ixCompare S.cols (keyInterval ex.conds ix).high e.1.1)
        (keyInterval ex.conds ix).highInclusive) (g.entries leaves) j := by
  obtain ⟨i, iid, hlow, hp, hcut⟩ := exists_lower h hups ⟨_, hk.low⟩ (keyInterval ex.conds ix).lowInclusive
  obtain ⟨j, last, hhigh, hl, hcut'⟩ := exists_upper h hups ⟨_, hk.high⟩ (keyInterval ex.conds ix).highInclusive
  refine ⟨i, iid, j, last, ?_, hp, hl, hcut.congr fun e => beforeLow_iff, hcut'.congr fun e => upToHigh_iff⟩
  unfold start
  rw [hix]
  exact hlow.ite_bind (hhigh.ite_bind Prog.Answers.ret)

end tree

end ScanExecutor

/-! ## Two scans of a table -/

namespace KeyInterval

/-- The key is before the low end and behind the high one. -/
def Crossed (k : KeyInterval) (cols : List ColMeta) (key : Bytes) : Prop :=
  ¬Before (ixCompare cols k.low key) k.lowInclusive ∧ ¬Before (-ixCompare cols k.high key) k.highInclusive

end KeyInterval

/-- A table and an index of it: a tree with an entry for each record, under its key. -/
structure IndexedHeap (S : ExactCols) (index : IndexMeta) (f : RmFile) (g : IxFile S.Key) (leaves : List Int)
    (ups : List (List Int)) : Prop where
  cols : index.cols = S.cols
  ready : f.Ready
  sized : f.Sized
  inside : ∀ col ∈ S.cols, col.offset.toNat + col.len.toNat ≤ f.fileHdr.recordSize.toNat
  tree : g.Tree leaves ups
  mirror : ∀ k r, (k, r) ∈ g.entries leaves ↔ ∃ b, f.view r = some b ∧ makeKey S.cols b = k.1

namespace IndexedHeap

variable {S : ExactCols} {index : IndexMeta} {f : RmFile} {g : IxFile S.Key} {leaves : List Int}
  {ups : List (List Int)} (h : IndexedHeap S index f g leaves ups) {rid : Rid} {b : Bytes}
include h

theorem length_colBytes (hb : f.view rid = some b) {col : ColMeta} (hcol : col ∈ S.cols) :
    (colBytes b col).length = col.len.toNat := by
  have hlen := h.sized rid b hb
  have hin := h.inside col hcol
  rw [colBytes, List.length_take, List.length_drop]
  omega

theorem length_makeKey (hb : f.view rid = some b) : (makeKey S.cols b).length = keyLen S.cols := by
  rw [makeKey, List.length_flatMap, keyLen]
  exact congrArg List.sum (List.map_congr_left fun col hcol => h.length_colBytes hb hcol)

/-- The entries are the ones of the records. -/
theorem mem_rids_iff : rid ∈ (g.entries leaves).map Prod.snd ↔ rid ∈ f.rids := by
  rw [RmFile.mem_rids, List.mem_map]
  constructor
  · rintro ⟨⟨k, r⟩, he, rfl⟩
    obtain ⟨b, hb, -⟩ := (h.mirror k r).1 he
    exact Option.isSome_of_eq_some hb
  · intro hrec
    obtain ⟨b, hb⟩ := Option.isSome_iff_exists.1 hrec
    exact ⟨(⟨makeKey S.cols b, h.length_makeKey hb⟩, rid), (h.mirror _ _).2 ⟨b, hb, rfl⟩, rfl⟩

/-- No record has two entries. -/
theorem nodup_entries : ((g.entries leaves).map Prod.snd).Nodup := by
  have hsorted := h.tree.sorted
  rw [List.pairwise_map] at hsorted
  refine List.pairwise_map.2 (hsorted.imp_of_mem fun {e e'} he he' hlt heq => ?_)
  obtain ⟨b, hb, hk⟩ := (h.mirror e.1 e.2).1 he
  obtain ⟨b', hb', hk'⟩ := (h.mirror e'.1 e'.2).1 he'
  rw [heq, hb'] at hb
  obtain rfl := Option.some.inj hb
  have hkey : e.1 = e'.1 := Subtype.ext (hk.symm.trans hk')
  exact absurd hlt (hkey ▸ lt_irrefl _)

theorem perm_rids : ((g.entries leaves).map Prod.snd).Perm f.rids :=
  (List.perm_ext_iff_of_nodup h.nodup_entries RmFile.nodup_rids).2 fun _ => h.mem_rids_iff

end IndexedHeap

/-- The record at a rid meets the conditions. -/
def meets (tab : TabMeta) (conds : List Condition) (f : RmFile) (rid : Rid) : Bool :=
  (f.view rid).any (condsHold tab.cols conds)

section plans
variable {S : ExactCols} {fuel : Nat} {tab : TabMeta} {f : RmFile} {g : IxFile S.Key} {leaves : List Int}
  {ups : List (List Int)} {names : List String} {index : IndexMeta} {conds : List Condition}
  (h : IndexedHeap S index f g leaves ups) (hbound : ∀ cond ∈ conds, cond.Bound tab.cols)
include h hbound

theorem selects_of_subset {ex : ScanExecutor} (hcols : ex.cols = tab.cols) (hconds : ex.conds = conds) {rids : List Rid}
    (hsub : ∀ rid ∈ rids, rid ∈ f.rids) : ScanExecutor.Selects f ex (meets tab conds f) rids := by
  intro rid hrid
  obtain ⟨b, hb⟩ := Option.isSome_iff_exists.1 (RmFile.mem_rids.1 (hsub rid hrid))
  refine ⟨b, RmFile.getRecord_of_view h.sized hb, ?_⟩
  rw [hcols, hconds, evalConds_eq hbound, meets, hb]
  rfl

/-- **A sequential scan delivers the records that meet the conditions**, in the order of their slots. -/
theorem gives_seqScan (hpages : f.fileHdr.numPages < fuel) (hrids : f.rids.length < fuel) :
    Gives fuel tab f g (scanRids fuel ⟨tab.name, conds, none⟩) (.ok (f.rids.filter (meets tab conds f))) := by
  have hnew : Gives fuel tab f g (ScanPlan.executor ⟨tab.name, conds, none⟩)
      (.ok ⟨tab.name, conds, tab.cols, none, ⟨-1, -1⟩, none⟩) := gives_getTable.bind Prog.Answers.ret
  have hindex : (⟨tab.name, conds, tab.cols, none, ⟨-1, -1⟩, none⟩ : ScanExecutor).index = none := rfl
  obtain ⟨pos, hstart, hstand⟩ := ScanExecutor.exists_start_rm h.ready hpages hindex
  exact ScanExecutor.answers_scanRids hnew hstart hstand (selects_of_subset h hbound rfl rfl fun _ hr => hr) hrids

variable (hmeta : tab.getIndexMeta names = .ok index) (hscan : Scannable tab.name tab.cols index conds)
include hscan

/-- The key of a record that meets the conditions is an entry in the interval. -/
theorem exists_entry_of_meets {rid : Rid} (hmeets : meets tab conds f rid = true) : ∃ k, (k, rid) ∈ g.entries leaves ∧
    (keyInterval conds index).Spans S.cols k.1 := by
  obtain ⟨b, hb, hholds⟩ := (Option.any_eq_true _ _).1 hmeets
  have hspan := spans_keyInterval hscan (fun col hcol => h.length_colBytes hb (h.cols ▸ hcol))
    ((evalConds_eq hbound b).trans (congrArg Except.ok hholds))
  rw [h.cols] at hspan
  exact ⟨⟨makeKey S.cols b, h.length_makeKey hb⟩, (h.mirror _ _).2 ⟨b, hb, rfl⟩, hspan⟩

section executor
variable (hmeta : tab.getIndexMeta names = .ok index)
include hmeta
omit h hbound

theorem gives_newIndexScan : Gives fuel tab f g (ScanPlan.executor ⟨tab.name, conds, some names⟩)
    (.ok ⟨tab.name, conds, tab.cols, some index, ⟨-1, -1⟩, none⟩) := by
  have hown : (conds.any fun c => c.lhsCol.tabName ≠ tab.name && (c.isRhsVal || c.rhsCol.tabName ≠ tab.name)) = false :=
    List.any_eq_false.2 fun c hc => by simp [hscan.own c hc]
  have hswap : conds.map (swapCond tab.name) = conds :=
    (List.map_congr_left fun c hc => if_neg (not_not.2 (hscan.own c hc))).trans (List.map_id conds)
  refine gives_getTable.bind ((gives_check hmeta).bind ?_)
  rw [hown, hswap]
  exact Prog.Answers.ret

end executor

variable (hmeta : tab.getIndexMeta names = .ok index) (hups : ups.length < fuel) (hrids : f.rids.length < fuel)
include hmeta hups hrids

/-- **An index scan delivers the records that meet the conditions**, each once, where no entry is before the interval
and behind it. -/
theorem gives_indexScan (hok : ∀ e ∈ g.entries leaves, ¬(keyInterval conds index).Crossed S.cols e.1.1) :
    ∃ rids, rids.Perm (f.rids.filter (meets tab conds f)) ∧
      Gives fuel tab f g (scanRids fuel ⟨tab.name, conds, some names⟩) (.ok rids) := by
  have hk : (keyInterval conds index).Sized S.cols := h.cols ▸ sized_keyInterval hscan
  have hindex : (⟨tab.name, conds, tab.cols, some index, ⟨-1, -1⟩, none⟩ : ScanExecutor).index = some index := rfl
  obtain ⟨i, iid, j, last, hstart, hp, hl, hcut, hcut'⟩ := ScanExecutor.exists_start_ix h.tree hindex hups hk
  have hle : i ≤ j := (hcut.le_iff hcut').2 fun e he hlow => by_contra fun hhigh => hok e he ⟨hlow, hhigh⟩
  have hsub : ((((g.entries leaves).drop i).take (j - i)).map Prod.snd).Sublist ((g.entries leaves).map Prod.snd) :=
    ((List.take_sublist _ _).trans (List.drop_sublist _ _)).map _
  have hlen := hsub.length_le.trans_lt (h.perm_rids.length_eq ▸ hrids)
  have hin := List.Subset.trans hsub.subset h.perm_rids.subset
  refine ⟨_, ?_, ScanExecutor.answers_scanRids (gives_newIndexScan hmeta hscan) hstart
    (ScanExecutor.stands_ix h.tree hindex hl hp (Nat.add_sub_cancel' hle)) (selects_of_subset h hbound rfl rfl fun _ hr => hin hr) hlen⟩
  rw [List.perm_ext_iff_of_nodup ((h.nodup_entries.sublist hsub).filter _) (RmFile.nodup_rids.filter _)]
  intro rid
  simp only [List.mem_filter, and_congr_left_iff]
  intro hmeets
  refine ⟨fun hr => hin hr, fun _ => ?_⟩
  obtain ⟨k, hk, hspan⟩ := exists_entry_of_meets h hbound hscan hmeets
  exact List.mem_map_of_mem (hcut.mem_between hcut' hle hk (not_not.2 hspan.low) hspan.high)

/-- With such an entry no record meets the conditions, and the index scan fails. -/
theorem raises_indexScan (hbad : ∃ e ∈ g.entries leaves, (keyInterval conds index).Crossed S.cols e.1.1) :
    f.rids.filter (meets tab conds f) = [] ∧
      Gives fuel tab f g (scanRids fuel ⟨tab.name, conds, some names⟩) (.error (.rmdb .indexEntryNotFound)) := by
  have hk : (keyInterval conds index).Sized S.cols := h.cols ▸ sized_keyInterval hscan
  have hindex : (⟨tab.name, conds, tab.cols, some index, ⟨-1, -1⟩, none⟩ : ScanExecutor).index = some index := rfl
  obtain ⟨i, iid, j, last, hstart, hp, hl, hcut, hcut'⟩ := ScanExecutor.exists_start_ix h.tree hindex hups hk
  have hlt : j < i := by
    by_contra hle
    obtain ⟨e, he, hlow, hhigh⟩ := hbad
    exact hhigh ((hcut.le_iff hcut').1 (Nat.le_of_not_lt hle) e he hlow)
  -- the interval holds no entry, so that no record meets the conditions
  have hnone : ∀ rid, meets tab conds f rid = false := by
    intro rid
    by_contra hmeets
    obtain ⟨k, hk, hspan⟩ := exists_entry_of_meets h hbound hscan (by simpa using hmeets)
    have hle := (hcut'.le_iff hcut).1 (Nat.le_of_lt hlt) (k, rid) hk hspan.high
    exact hle hspan.low
  have hsub : (((g.entries leaves).drop i).map Prod.snd).Sublist ((g.entries leaves).map Prod.snd) :=
    (List.drop_sublist _ _).map _
  have hlen := hsub.length_le.trans_lt (h.perm_rids.length_eq ▸ hrids)
  have hin := List.Subset.trans hsub.subset h.perm_rids.subset
  refine ⟨List.filter_eq_nil_iff.2 fun rid _ => by simp [hnone rid], ?_⟩
  exact ScanExecutor.raises_scanRids (gives_newIndexScan hmeta hscan) hstart
    (ScanExecutor.stands_ix_inverted h.tree hindex hl hp hlt (Nat.add_sub_cancel' hp.le))
    (selects_of_subset h hbound rfl rfl fun _ hr => hin hr) (fun rid _ => hnone rid) hlen

end plans

/-- The index of a table with one INT column. -/
def intIndex : IndexMeta := ⟨"t", 4, 1, intCols.cols⟩

/-- `a > 1 AND a < 1`. -/
def noneBetween : List Condition :=
  [⟨⟨"t", "a"⟩, .gt, true, ⟨"", ""⟩, ⟨.int 1, some (intBytes 1)⟩⟩,
    ⟨⟨"t", "a"⟩, .lt, true, ⟨"", ""⟩, ⟨.int 1, some (intBytes 1)⟩⟩]

/-- A table with the record 1, and its index. -/
theorem exists_oneRow : ∃ (f : RmFile) (g : IxFile intCols.Key) (leaves : List Int) (ups : List (List Int)) (rid : Rid),
    IndexedHeap intCols intIndex f g leaves ups ∧ (intKey 1, rid) ∈ g.entries leaves := by
  have hgood : RmFile.heapView.Good (RmFile.newFile "t" 4) := RmFile.newFile_good "t" (by decide) (by decide)
  have hlen : (intBytes 1).length = RmFile.heapOps.size (RmFile.newFile "t" 4) := rfl
  obtain ⟨rid, f, ctx, -, -, hgood', hput⟩ := RmFile.heapMap.insertRecord hgood hlen none
  obtain ⟨s, g, leaves, ups, -, -, ht, hlists, -⟩ := exists_run_newIndex accepted_intCols
    (show ixInitNumPages ≤ 3 by decide) [.insertEntry (intKey 1) rid] (Nat.lt_succ_self 1)
  have hview : ∀ r, f.view r = if r = rid then some (intBytes 1) else none := by
    intro r
    have h := congrFun hput.view r
    rw [Function.update_apply] at h
    refine h.trans ?_
    split
    · rfl
    · exact RmFile.newFile_view "t" 4 r
  have hmap : ∀ k r, (k, r) ∈ g.entries leaves ↔ k = intKey 1 ∧ r = rid := by
    intro k r
    have hmeaning : (IndexCall.meanings (fun _ => none) [.insertEntry (intKey 1) rid]).2 =
        Function.update (fun _ => none) (intKey 1) (some rid) := rfl
    rw [hlists k r, hmeaning]
    by_cases hk : k = intKey 1
    · subst hk
      rw [Function.update_self, Option.some_inj]
      exact ⟨fun hr => ⟨rfl, hr.symm⟩, fun hr => hr.2.symm⟩
    · rw [Function.update_of_ne hk]
      exact ⟨nofun, fun hr => absurd hr.1 hk⟩
  have hkey : makeKey intCols.cols (intBytes 1) = intBytes 1 := by decide
  refine ⟨f, g, leaves, ups, rid, ⟨rfl, hgood'.1.choose_spec.toReady, hgood'.2, ?_, ht, fun k r => ?_⟩, ?_⟩
  · have hsize : f.fileHdr.recordSize.toNat = 4 := hput.size
    intro col hcol
    rw [List.mem_singleton.1 hcol, hsize]
    decide
  · rw [hmap, hview]
    constructor
    · rintro ⟨rfl, rfl⟩
      exact ⟨intBytes 1, if_pos rfl, hkey⟩
    · rintro ⟨b, hb, hbk⟩
      split at hb
      · next hr =>
        obtain rfl := Option.some.inj hb
        exact ⟨Subtype.ext (hbk.symm.trans hkey), hr⟩
      · cases hb
  · exact (hmap _ _).2 ⟨rfl, rfl⟩

end Rmdb
