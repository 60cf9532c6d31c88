import Rmdb.Index.IndexMap
import Rmdb.Lib.Cut

/-!
# Range scans

- `scanNext`, `scanRids`: `IxScan::next`, and the loop over a scan; `rangeScan`: the scan between two keys that
  `IndexScanExecutor::beginTuple` starts;
- `Place`: the position before the entry with a number, in the one form that all searches return;
- `Tree.leadsTo_rangeScan`, `Tree.run_rangeScan_inverted`: a range scan delivers the entries between its keys in order,
  unless an entry lies before its start and behind its end. Then it runs past the last entry.
-/

namespace Rmdb

open Lib

namespace IxIndexHandle

variable {κ : Type}

/-- `IxScan::next` behind its first assertion. The page of the position stays pinned. -/
def scanStep (iid : Iid) : IxM κ Iid := do
  let node ← fetchNode iid.pageNo
  let n ← getNode node
  let s ← Act.get
  if n.isLeaf = false ∨ (n.size : Int) ≤ iid.slotNo then Act.throw .assertion
  else if iid.pageNo ≠ s.file.fileHdr.lastLeaf ∧ iid.slotNo + 1 = n.size then return ⟨n.nextLeaf, 0⟩
  else return ⟨iid.pageNo, iid.slotNo + 1⟩

/-- `IxScan::next`. -/
def scanNext (iid last : Iid) : IxM κ Iid := if iid = last then Act.throw .assertion else scanStep iid

/-- The loop over a scan: the rids from a position to the last one. -/
def scanRids : Nat → Iid → Iid → IxM κ (List Rid)
  | 0, _, _ => Act.throw .outOfFuel
  | fuel + 1, iid, last => do
    if iid = last then return []
    else do
      let rid ← getRid iid
      let iid ← scanNext iid last
      let rids ← scanRids fuel iid last
      return rid :: rids

section
variable [Ord κ]

/-- `lower` of `beginTuple`. -/
def lower (fuel : Nat) (low : κ) (lowInclusive : Bool) : IxM κ Iid :=
  if lowInclusive then lowerBound fuel low else upperBound fuel low

/-- `upper` of `beginTuple`. -/
def upper (fuel : Nat) (high : κ) (highInclusive : Bool) : IxM κ Iid :=
  if highInclusive then upperBound fuel high else lowerBound fuel high

/-- The scan between two keys, with its ends inclusive or not. -/
def rangeScan (fuel turns : Nat) (low : κ) (lowInclusive : Bool) (high : κ) (highInclusive : Bool) :
    IxM κ (List Rid) := do
  let iid ← lower fuel low lowInclusive
  let last ← upper fuel high highInclusive
  scanRids turns iid last

end

/-- A key before the start of the scan. -/
def BeforeLow [LT κ] (low : κ) (lowInclusive : Bool) (k : κ) : Prop := k < low ∨ lowInclusive = false ∧ k = low

/-- A key that is not behind the end of the scan. -/
def UpToHigh [LT κ] (high : κ) (highInclusive : Bool) (k : κ) : Prop := k < high ∨ highInclusive = true ∧ k = high

instance [LinearOrder κ] (low : κ) (lowInclusive : Bool) : DecidablePred (BeforeLow low lowInclusive) := fun k =>
  inferInstanceAs (Decidable (k < low ∨ lowInclusive = false ∧ k = low))

instance [LinearOrder κ] (high : κ) (highInclusive : Bool) : DecidablePred (UpToHigh high highInclusive) := fun k =>
  inferInstanceAs (Decidable (k < high ∨ highInclusive = true ∧ k = high))

end IxIndexHandle

namespace IxFile

variable {κ : Type} (f : IxFile κ)

/-- The position before the entry with number `i`. Behind the last entry of a leaf is the first one of the next. -/
def Place (leaves : List Int) (i : Nat) (iid : Iid) : Prop :=
  ∃ A p B j, leaves = A ++ p :: B ∧ iid = ⟨p, (j : Nat)⟩ ∧ i = (f.entries A).length + j ∧
    (j < (f.pairs p).length ∨ B = [] ∧ j = (f.pairs p).length)

variable {f} {leaves : List Int} {i i' : Nat} {iid iid' : Iid}

theorem entries_append {A B : List Int} {p : Int} :
    f.entries (A ++ p :: B) = f.entries A ++ (f.pairs p ++ f.entries B) := by simp [entries]

theorem Place.le (h : f.Place leaves i iid) : i ≤ (f.entries leaves).length := by
  obtain ⟨A, p, B, j, rfl, -, rfl, hj⟩ := h
  rw [entries_append, List.length_append, List.length_append]
  omega

/-- A position is before one entry. -/
theorem Place.unique (hn : leaves.Nodup) (h : f.Place leaves i iid) (h' : f.Place leaves i' iid) : i = i' := by
  obtain ⟨A, p, B, j, rfl, rfl, rfl, -⟩ := h
  obtain ⟨A', p', B', j', hl, he, rfl, -⟩ := h'
  obtain ⟨rfl, hj⟩ : p = p' ∧ (j : Int) = j' := by simpa using he
  have hp : p ∉ A ++ B := (List.nodup_cons.1 (List.nodup_middle.1 hn)).1
  rw [List.mem_append, not_or] at hp
  obtain ⟨hA, -⟩ := (List.append_cons_inj_of_notMem hp.1 hp.2).1 hl
  rw [hA]
  omega

/-- There is one position before an entry. -/
theorem Place.eq (h : f.Place leaves i iid) (h' : f.Place leaves i iid') : iid = iid' := by
  obtain ⟨A, p, B, j, rfl, rfl, rfl, hj⟩ := h
  obtain ⟨A', p', B', j', hl, rfl, hi, hj'⟩ := h'
  -- two decompositions of the leaves: one of the leaves is before the other or they are one
  rcases List.append_eq_append_iff.1 hl with ⟨C, rfl, hC⟩ | ⟨C, rfl, hC⟩
  · cases C with
    | nil =>
      obtain ⟨rfl, -⟩ := List.cons.inj hC
      simp only [List.append_nil] at hi
      have : j = j' := by omega
      rw [this]
    | cons q C =>
      obtain ⟨rfl, rfl⟩ := List.cons.inj hC
      rw [entries_append, List.length_append, List.length_append] at hi
      rcases hj with hj | ⟨hB, -⟩
      · omega
      · simp at hB
  · cases C with
    | nil =>
      obtain ⟨rfl, -⟩ := List.cons.inj hC
      simp only [List.append_nil] at hi
      have : j = j' := by omega
      rw [this]
    | cons q C =>
      obtain ⟨rfl, rfl⟩ := List.cons.inj hC
      rw [entries_append, List.length_append, List.length_append] at hi
      rcases hj' with hj' | ⟨hB, -⟩
      · omega
      · simp at hB

end IxFile

namespace IxFile.Tree

open IxIndexHandle

variable {κ : Type} [LinearOrder κ] {f : IxFile κ} {leaves A B : List Int} {ups : List (List Int)} {fuel i j : Nat}
  {k : κ} {p : Int} {iid last : Iid}

/-! ## Positions -/

theorem eq_lastLeaf_iff (h : f.Tree (A ++ p :: B) ups) : p = f.fileHdr.lastLeaf ↔ B = [] := by
  have hlast := h.lastLeaf
  constructor
  · rintro rfl
    cases B using List.reverseRecOn with
    | nil => rfl
    | append_singleton B b =>
      rw [show A ++ f.fileHdr.lastLeaf :: (B ++ [b]) = (A ++ f.fileHdr.lastLeaf :: B) ++ [b] by simp,
        List.getLast?_concat] at hlast
      have hn := (List.nodup_append.1 (List.nodup_append.1 h.nodup).1).2.1
      rw [Option.some.inj hlast] at hn
      simp at hn
  · rintro rfl
    simpa using hlast

/-- A leaf that is not the last one is followed by a leaf with entries. -/
theorem next_of_ne_nil (h : f.Tree (A ++ p :: B) ups) (hB : B ≠ []) :
    ∃ q C, B = q :: C ∧ f.nextLeaf p = q ∧ f.pairs q ≠ [] := by
  obtain ⟨q, C, rfl⟩ := List.exists_cons_of_ne_nil hB
  obtain ⟨n, R, hR, hn⟩ := h.exists_next
  obtain ⟨rfl, -⟩ := List.cons.inj hR
  exact ⟨q, C, rfl, hn, h.leaf_ne_nil (Above.ne_nil h.above) (by simp)⟩

/-- The position behind `j` entries of a leaf. -/
theorem place_at (h : f.Tree (A ++ p :: B) ups) (hj : j ≤ (f.pairs p).length) :
    f.Place (A ++ p :: B) ((f.entries A).length + j)
      (if (f.pairs p).length ≤ j ∧ p ≠ f.fileHdr.lastLeaf then ⟨f.nextLeaf p, 0⟩ else ⟨p, (j : Nat)⟩) := by
  split
  case isTrue hend =>
    obtain ⟨q, C, rfl, hq, hne⟩ := h.next_of_ne_nil fun hB => hend.2 (h.eq_lastLeaf_iff.2 hB)
    refine ⟨A ++ [p], q, C, 0, by simp, by rw [hq]; rfl, ?_, .inl (List.length_pos_iff.2 hne)⟩
    have hfull : j = (f.pairs p).length := Nat.le_antisymm hj hend.1
    simp [entries, hfull]
  case isFalse hend =>
    refine ⟨A, p, B, j, rfl, rfl, rfl, ?_⟩
    by_cases hB : B = []
    · rcases Nat.lt_or_eq_of_le hj with hlt | heq
      · exact .inl hlt
      · exact .inr ⟨hB, heq⟩
    · have hne : p ≠ f.fileHdr.lastLeaf := fun hp => hB (h.eq_lastLeaf_iff.1 hp)
      exact .inl (Nat.lt_of_not_le fun hle => hend ⟨hle, hne⟩)

omit [LinearOrder κ] in
theorem leadsTo_iidAt {n : Nat} : LeadsTo (iidAt p n) f
    (if (f.pairs p).length ≤ n ∧ p ≠ f.fileHdr.lastLeaf then ⟨f.nextLeaf p, 0⟩ else ⟨p, (n : Nat)⟩) f := by
  refine Act.Leads.bind leadsTo_touch (Act.Leads.get_bind fun s hs => ?_)
  rw [hs.1]
  exact Act.Leads.pure

/-- The entries below a key, as the search for the key finds them in a leaf. -/
theorem exists_cut (h : f.Tree leaves ups) (hfuel : ups.length < fuel) (k : κ) :
    ∃ A p B X Y, leaves = A ++ p :: B ∧ f.pairs p = X ++ Y ∧ (∀ e ∈ f.entries A ++ X, e.1 < k) ∧
      (∀ e ∈ Y, k ≤ e.1) ∧ (∀ e ∈ f.entries B, k < e.1) ∧ ((f.pairs p).map Prod.fst).Pairwise (· < ·) ∧
      LeadsTo (findLeafPage fuel k) f p f := by
  obtain ⟨p, hr, hfind⟩ := h.leadsTo_findLeafPage (k := k) hfuel
  obtain ⟨A, B, rfl, hE, hA, hB, -⟩ := h.entries_route hr
  have hsp := h.sorted_leaf
  obtain ⟨X, Y, hp, hX, hY⟩ := (f.node p).exists_split hsp k
  exact ⟨A, p, B, X, Y, rfl, hp, fun e he => (List.mem_append.1 he).elim (hA e) (hX e), hY, hB, hsp, hfind⟩

/-- `lower_bound` finds the position before the first entry that is not below the key. -/
theorem leadsTo_lowerBound (h : f.Tree leaves ups) (hfuel : ups.length < fuel) (k : κ) :
    ∃ i iid, LeadsTo (lowerBound fuel k) f iid f ∧ f.Place leaves i iid ∧
      Cut (fun e => e.1 < k) (f.entries leaves) i := by
  obtain ⟨A, p, B, X, Y, rfl, hp, hX, hY, hB, -, hfind⟩ := h.exists_cut hfuel k
  have hplace := h.place_at (p := p) (j := X.length) (by simp [hp])
  refine ⟨_, _, Act.Leads.bind hfind (Act.Leads.bind leadsTo_getNode ?_), hplace, ?_⟩
  · rw [IxNode.lowerBound_eq hp (fun e he => hX e (List.mem_append_right _ he)) hY]
    exact Act.Leads.bind leadsTo_iidAt (leadsTo_unpinPage Act.Leads.pure)
  · have hE : f.entries (A ++ p :: B) = (f.entries A ++ X) ++ (Y ++ f.entries B) := by simp [entries_append, hp]
    rw [hE, ← List.length_append]
    exact Cut.of_append hX fun e he => not_lt.2 ((List.mem_append.1 he).elim (hY e) fun hb => le_of_lt (hB e hb))

/-- `upper_bound` finds the position before the first entry above the key. -/
theorem leadsTo_upperBound (h : f.Tree leaves ups) (hfuel : ups.length < fuel) (k : κ) :
    ∃ i iid, LeadsTo (upperBound fuel k) f iid f ∧ f.Place leaves i iid ∧
      Cut (fun e => e.1 ≤ k) (f.entries leaves) i := by
  obtain ⟨A, p, B, X, Y, rfl, hp, hX, hY, hB, hsp, hfind⟩ := h.exists_cut hfuel k
  have hX' : ∀ e ∈ X, e.1 < k := fun e he => hX e (List.mem_append_right _ he)
  have hkey := IxNode.keyIs_iff (n := f.node p) hsp hp hX' hY
  have hmem := IxNode.mem_iff_head (n := f.node p) hsp hp hX' hY
  by_cases hk : ∃ r, (k, r) ∈ f.pairs p
  · obtain ⟨r, hr⟩ := hk
    obtain ⟨Y', rfl⟩ : ∃ Y', Y = (k, r) :: Y' := List.head?_eq_some_iff.1 ((hmem r).1 hr)
    have hY' : ∀ e ∈ Y', k < e.1 := by
      rw [hp, List.map_append, List.map_cons, List.pairwise_append, List.pairwise_cons] at hsp
      exact fun e he => hsp.2.1.1 _ (List.mem_map_of_mem he)
    have hplace := h.place_at (p := p) (j := X.length + 1) (by simp [hp])
    refine ⟨_, _, Act.Leads.bind hfind (Act.Leads.bind leadsTo_getNode ?_), hplace, ?_⟩
    · rw [IxNode.lowerBound_eq hp hX' hY]
      dsimp only
      rw [if_pos (hkey.2 ⟨r, hr⟩)]
      exact Act.Leads.bind leadsTo_iidAt (leadsTo_unpinPage Act.Leads.pure)
    · have hE : f.entries (A ++ p :: B) = (f.entries A ++ X ++ [(k, r)]) ++ (Y' ++ f.entries B) := by
        simp [entries_append, hp]
      have hlen : (f.entries A).length + (X.length + 1) = (f.entries A ++ X ++ [(k, r)]).length := by simp
      rw [hE, hlen]
      refine Cut.of_append (fun e he => ?_) fun e he => not_le.2 ((List.mem_append.1 he).elim (hY' e) (hB e))
      rcases List.mem_append.1 he with he | he
      · exact le_of_lt (hX e he)
      · rw [List.mem_singleton.1 he]
  · have hY' : ∀ e ∈ Y, k < e.1 := fun e he => by
      refine lt_of_le_of_ne (hY e he) ?_
      rintro rfl
      exact hk ⟨e.2, by simp [hp, he]⟩
    have hplace := h.place_at (p := p) (j := X.length) (by simp [hp])
    refine ⟨_, _, Act.Leads.bind hfind (Act.Leads.bind leadsTo_getNode ?_), hplace, ?_⟩
    · rw [IxNode.lowerBound_eq hp hX' hY]
      dsimp only
      rw [if_neg fun hc => hk (hkey.1 hc)]
      exact Act.Leads.bind leadsTo_iidAt (leadsTo_unpinPage Act.Leads.pure)
    · have hE : f.entries (A ++ p :: B) = (f.entries A ++ X) ++ (Y ++ f.entries B) := by simp [entries_append, hp]
      rw [hE, ← List.length_append]
      exact Cut.of_append (fun e he => le_of_lt (hX e he)) fun e he =>
        not_le.2 ((List.mem_append.1 he).elim (hY' e) (hB e))

/-- `leaf_begin` and `leaf_end` are the ends. -/
theorem leadsTo_ends (h : f.Tree leaves ups) : ∃ first last, LeadsTo leafBegin f first f ∧ LeadsTo leafEnd f last f ∧
    f.Place leaves 0 first ∧ f.Place leaves (f.entries leaves).length last := by
  obtain ⟨p, B, hp⟩ := List.exists_cons_of_ne_nil (l := leaves) (by
    rintro rfl
    simpa using h.firstLeaf)
  obtain ⟨A, q, hq⟩ : ∃ A q, leaves = A ++ [q] := ⟨_, _, (List.dropLast_append_getLast (by simp [hp])).symm⟩
  have hfirst : f.fileHdr.firstLeaf = p := by
    have := h.firstLeaf
    rw [hp] at this
    exact (Option.some.inj this).symm
  have hlast : f.fileHdr.lastLeaf = q := by
    have := h.lastLeaf
    rw [hq, List.getLast?_concat] at this
    exact (Option.some.inj this).symm
  refine ⟨⟨p, 0⟩, ⟨q, (f.pairs q).length⟩, Act.Leads.get_bind fun s hs => ?_, Act.Leads.get_bind fun s hs => ?_, ?_, ?_⟩
  · rw [hs.1, hfirst]
    exact Act.Leads.pure
  · rw [hs.1, hlast]
    refine Act.Leads.bind (leadsTo_fetchNode (h.live q (by simp [hq])).1) (Act.Leads.bind leadsTo_getNode
      (leadsTo_unpinPage ?_))
    exact Act.Leads.pure
  · refine ⟨[], p, B, 0, hp, rfl, rfl, ?_⟩
    by_cases hB : B = []
    · rcases Nat.eq_zero_or_pos (f.pairs p).length with h0 | hpos
      · exact .inr ⟨hB, h0.symm⟩
      · exact .inl hpos
    · obtain ⟨b, C, rfl⟩ := List.exists_cons_of_ne_nil hB
      have habove := h.above
      rw [hp] at habove
      exact .inl (List.length_pos_iff.2 (h.leaf_ne_nil (Above.ne_nil (A := []) habove) (by simp [hp])))
  · refine ⟨A, q, [], (f.pairs q).length, hq, rfl, ?_, .inr ⟨rfl, rfl⟩⟩
    rw [hq, entries_append]
    simp [entries]

/-! ## Scans -/

omit [LinearOrder κ] in
/-- At a place before an entry the scan is on a leaf, on a slot that holds the entry. -/
theorem exists_slot (h : f.Place leaves i iid) (hi : i < (f.entries leaves).length) :
    ∃ A p B j e, leaves = A ++ p :: B ∧ iid = ⟨p, (j : Nat)⟩ ∧ i = (f.entries A).length + j ∧
      j < (f.pairs p).length ∧ (f.pairs p)[j]? = some e ∧ (f.entries leaves)[i]? = some e := by
  obtain ⟨A, p, B, j, rfl, rfl, rfl, hj⟩ := h
  have hlt : j < (f.pairs p).length := by
    rcases hj with hj | ⟨rfl, rfl⟩
    · exact hj
    · simp [entries] at hi
  refine ⟨A, p, B, j, (f.pairs p)[j], rfl, rfl, rfl, hlt, List.getElem?_eq_getElem hlt, ?_⟩
  rw [entries_append, List.getElem?_append_right (by omega), List.getElem?_append_left (by omega),
    Nat.add_sub_cancel_left, List.getElem?_eq_getElem hlt]

/-- `get_rid` reads the entry at the position. -/
theorem leadsTo_getRid {e : κ × Rid} (h : f.Tree leaves ups) (hp : f.Place leaves i iid)
    (he : (f.entries leaves)[i]? = some e) : LeadsTo (getRid iid) f e.2 f := by
  obtain ⟨A, p, B, j, e', rfl, rfl, -, hlt, hj, he'⟩ := exists_slot hp (List.getElem?_eq_some_iff.1 he).1
  obtain rfl : e' = e := Option.some.inj (he'.symm.trans he)
  refine Act.Leads.bind (leadsTo_fetchNode (h.live p (by simp)).1) (Act.Leads.bind leadsTo_getNode ?_)
  rw [if_neg (by simpa using hlt), if_neg (by simp)]
  exact Act.Leads.bind (leadsTo_pairAt (by simpa using hj)) (leadsTo_unpinPage Act.Leads.pure)

/-- `get_rid` behind the last entry. -/
theorem run_getRid_end {s : IxIndexHandle κ} (h : f.Tree leaves ups)
    (hp : f.Place leaves (f.entries leaves).length iid) (hs : Shows s f) :
    ∃ s', (getRid iid).run s = (.error (.thrown .indexEntryNotFound), s') ∧ Shows s' f := by
  obtain ⟨A, p, B, j, rfl, rfl, hlen, hj⟩ := hp
  have hend : (f.pairs p).length ≤ j := by
    rcases hj with hj | ⟨-, rfl⟩
    · rw [entries_append, List.length_append, List.length_append] at hlen
      omega
    · exact Nat.le_refl _
  have hhas : s.file.Has p := by
    rw [hs.1]
    exact (h.live p (by simp)).1
  refine ⟨(s.pin p).touched p, ?_, by simpa using hs.1, by simpa using hs.2⟩
  rw [getRid, Act.run_bind_of_ok (run_fetchNode hhas hs.2), Act.run_bind_of_ok run_getNode]
  rw [if_pos (by simpa [hs.1] using hend)]
  rfl

/-- `IxScan::next` goes to the next entry. -/
theorem leadsTo_scanStep (h : f.Tree leaves ups) (hp : f.Place leaves i iid) (hi : i < (f.entries leaves).length) :
    ∃ iid', LeadsTo (scanStep iid) f iid' f ∧ f.Place leaves (i + 1) iid' := by
  obtain ⟨A, p, B, j, e, rfl, rfl, rfl, hlt, -⟩ := exists_slot hp hi
  refine ⟨_, ?_, h.place_at (j := j + 1) hlt⟩
  refine Act.Leads.bind (leadsTo_fetchNode (h.live p (by simp)).1) (Act.Leads.bind leadsTo_getNode
    (Act.Leads.get_bind fun s hs => ?_))
  rw [if_neg (by simp [(h.leafOk p (by simp)).1, hlt]), hs.1]
  have hcond : (p ≠ f.fileHdr.lastLeaf ∧ (j : Int) + 1 = (f.node p).size) ↔
      (f.pairs p).length ≤ j + 1 ∧ p ≠ f.fileHdr.lastLeaf := by
    rw [node_size, and_comm]
    omega
  simp only [hcond]
  split <;> exact Act.Leads.pure

theorem leadsTo_scanNext (h : f.Tree leaves ups) (hp : f.Place leaves i iid) (hi : i < (f.entries leaves).length)
    (hne : iid ≠ last) : ∃ iid', LeadsTo (scanNext iid last) f iid' f ∧ f.Place leaves (i + 1) iid' := by
  rw [scanNext, if_neg hne]
  exact h.leadsTo_scanStep hp hi

/-- A scan from one position to a later one delivers what lies between them. -/
theorem leadsTo_scanRids (h : f.Tree leaves ups) (hp : f.Place leaves i iid) (hl : f.Place leaves j last) (hle : i ≤ j)
    (hfuel : j - i < fuel) :
    LeadsTo (IxIndexHandle.scanRids fuel iid last) f ((((f.entries leaves).drop i).take (j - i)).map Prod.snd) f := by
  have hn := (List.nodup_append.1 h.nodup).1
  induction hd : j - i generalizing i iid fuel with
  | zero =>
    obtain ⟨n, rfl⟩ : ∃ n, fuel = n + 1 := ⟨fuel - 1, by omega⟩
    obtain rfl : i = j := by omega
    rw [IxIndexHandle.scanRids, if_pos (hp.eq hl)]
    exact Act.Leads.pure
  | succ d ih =>
    obtain ⟨n, rfl⟩ : ∃ n, fuel = n + 1 := ⟨fuel - 1, by omega⟩
    have hi : i < (f.entries leaves).length := Nat.lt_of_lt_of_le (by omega) hl.le
    have hne : iid ≠ last := by
      rintro rfl
      have := hp.unique hn hl
      omega
    obtain ⟨iid', hnext, hp'⟩ := h.leadsTo_scanNext hp hi hne
    have hrid := h.leadsTo_getRid hp (List.getElem?_eq_getElem hi)
    rw [IxIndexHandle.scanRids, if_neg hne, List.drop_eq_getElem_cons hi, List.take_succ_cons, List.map_cons]
    exact Act.Leads.bind hrid (Act.Leads.bind hnext (Act.Leads.bind (ih hp' (by omega) (by omega) (by omega)) Act.Leads.pure))

/-- A scan from one position to an earlier one runs past the last entry. -/
theorem run_scanRids_inverted {s : IxIndexHandle κ} (h : f.Tree leaves ups) (hp : f.Place leaves i iid)
    (hl : f.Place leaves j last) (hlt : j < i) (hfuel : (f.entries leaves).length - i < fuel) (hs : Shows s f) :
    ∃ s', (IxIndexHandle.scanRids fuel iid last).run s = (.error (.thrown .indexEntryNotFound), s') ∧ Shows s' f := by
  have hn := (List.nodup_append.1 h.nodup).1
  induction hd : (f.entries leaves).length - i generalizing i iid fuel s with
  | zero =>
    obtain ⟨n, rfl⟩ : ∃ n, fuel = n + 1 := ⟨fuel - 1, by omega⟩
    have hne : iid ≠ last := by
      rintro rfl
      have := hp.unique hn hl
      omega
    obtain rfl : i = (f.entries leaves).length := Nat.le_antisymm hp.le (by omega)
    obtain ⟨s', hrun, hs'⟩ := h.run_getRid_end hp hs
    refine ⟨s', ?_, hs'⟩
    rw [IxIndexHandle.scanRids, if_neg hne, Act.run_bind, hrun]
  | succ d ih =>
    obtain ⟨n, rfl⟩ : ∃ n, fuel = n + 1 := ⟨fuel - 1, by omega⟩
    have hi : i < (f.entries leaves).length := by omega
    have hne : iid ≠ last := by
      rintro rfl
      have := hp.unique hn hl
      omega
    obtain ⟨iid', hnext, hp'⟩ := h.leadsTo_scanNext hp hi hne
    obtain ⟨s₁, hrun₁, hs₁⟩ := h.leadsTo_getRid hp (List.getElem?_eq_getElem hi) s hs
    obtain ⟨s₂, hrun₂, hs₂⟩ := hnext s₁ hs₁
    have hturns : (f.entries leaves).length - (i + 1) < n := by omega
    obtain ⟨s', hrun, hs'⟩ := ih hp' (by omega) hturns hs₂ (by omega)
    refine ⟨s', ?_, hs'⟩
    rw [IxIndexHandle.scanRids, if_neg hne, Act.run_bind_of_ok hrun₁, Act.run_bind_of_ok hrun₂, Act.run_bind, hrun]

/-! ## Ranges -/

section range
variable {low high : κ} {lowInclusive highInclusive : Bool} {turns : Nat}

/-- The start of a range scan. -/
theorem leadsTo_lower (h : f.Tree leaves ups) (hfuel : ups.length < fuel) (low : κ) (lowInclusive : Bool) :
    ∃ i iid, LeadsTo (lower fuel low lowInclusive) f iid f ∧
      f.Place leaves i iid ∧ Cut (fun e => BeforeLow low lowInclusive e.1) (f.entries leaves) i := by
  cases lowInclusive with
  | true => simpa [lower, BeforeLow] using h.leadsTo_lowerBound hfuel low
  | false => simpa [lower, BeforeLow, le_iff_lt_or_eq] using h.leadsTo_upperBound hfuel low

/-- The end of a range scan. -/
theorem leadsTo_upper (h : f.Tree leaves ups) (hfuel : ups.length < fuel) (high : κ) (highInclusive : Bool) :
    ∃ j last, LeadsTo (upper fuel high highInclusive) f last f ∧
      f.Place leaves j last ∧ Cut (fun e => UpToHigh high highInclusive e.1) (f.entries leaves) j := by
  cases highInclusive with
  | true => simpa [upper, UpToHigh, le_iff_lt_or_eq] using h.leadsTo_upperBound hfuel high
  | false => simpa [upper, UpToHigh] using h.leadsTo_lowerBound hfuel high

variable (h : f.Tree leaves ups) (hfuel : ups.length < fuel) (hturns : (f.entries leaves).length < turns)
include h hfuel hturns

/-- **A range scan delivers the entries between its keys, in their order.** -/
theorem leadsTo_rangeScan
    (hok : ∀ e ∈ f.entries leaves, BeforeLow low lowInclusive e.1 → UpToHigh high highInclusive e.1) :
    LeadsTo (rangeScan fuel turns low lowInclusive high highInclusive) f
      (((f.entries leaves).filter fun e => ¬BeforeLow low lowInclusive e.1 ∧ UpToHigh high highInclusive e.1).map
        Prod.snd) f := by
  obtain ⟨i, iid, hlower, hp, hcut⟩ := h.leadsTo_lower hfuel low lowInclusive
  obtain ⟨j, last, hupper, hl, hcut'⟩ := h.leadsTo_upper hfuel high highInclusive
  have hle := (hcut.le_iff hcut').2 hok
  have hj := hl.le
  rw [hcut.filter hcut' hle]
  exact Act.Leads.bind hlower (Act.Leads.bind hupper (h.leadsTo_scanRids hp hl hle
    (Nat.lt_of_le_of_lt (Nat.sub_le j i) (Nat.lt_of_le_of_lt hj hturns))))

/-- **With an entry that is before its start and behind its end, a range scan fails.** -/
theorem run_rangeScan_inverted {s : IxIndexHandle κ}
    (hbad : ∃ e ∈ f.entries leaves, BeforeLow low lowInclusive e.1 ∧ ¬UpToHigh high highInclusive e.1)
    (hs : Shows s f) :
    ∃ s', (rangeScan fuel turns low lowInclusive high highInclusive).run s =
      (.error (.thrown .indexEntryNotFound), s') ∧ Shows s' f := by
  obtain ⟨i, iid, hlower, hp, hcut⟩ := h.leadsTo_lower hfuel low lowInclusive
  obtain ⟨j, last, hupper, hl, hcut'⟩ := h.leadsTo_upper hfuel high highInclusive
  have hlt : j < i := by
    by_contra hle
    obtain ⟨e, he, hlow, hhigh⟩ := hbad
    exact hhigh ((hcut.le_iff hcut').1 (Nat.le_of_not_lt hle) e he hlow)
  obtain ⟨s₁, hrun₁, hs₁⟩ := hlower s hs
  obtain ⟨s₂, hrun₂, hs₂⟩ := hupper s₁ hs₁
  have hleft : (f.entries leaves).length - i < turns := by omega
  obtain ⟨s', hrun, hs'⟩ := h.run_scanRids_inverted hp hl hlt hleft hs₂
  refine ⟨s', ?_, hs'⟩
  rw [rangeScan, Act.run_bind_of_ok hrun₁, Act.run_bind_of_ok hrun₂, hrun]

end range

end IxFile.Tree

/-! ## Range scans of an index -/

section exact
open IxIndexHandle
variable {S : ExactCols} {next : Int}

end exact

end Rmdb
