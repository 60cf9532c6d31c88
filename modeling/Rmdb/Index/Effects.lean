import Rmdb.Index.IndexHandle

/-!
# What the index operations do to the file

- the fields of the nodes as functions of the page number, with their values after a write;
- `LeadsTo`: the call returns, whatever pins there are, and leaves the file as described, when the pool grants every
  request; one rule for each operation of a node;
- `leadsTo_split_leaf`, `leadsTo_split_inner`: the file after `split`.
-/

namespace Rmdb

open Lib

namespace IxFile

variable {κ : Type} (f : IxFile κ) (p : Int) (n : IxNode κ)

/-! ## The fields of the nodes -/

def pairs : List (κ × Rid) := (f.node p).pairs

def parent : Int := (f.node p).parent

def isLeaf : Bool := (f.node p).isLeaf

def prevLeaf : Int := (f.node p).prevLeaf

def nextLeaf : Int := (f.node p).nextLeaf

/-- The page can be read. -/
def Has : Prop := (f.pages p).isSome

@[simp] theorem node_pairs : (f.node p).pairs = f.pairs p := rfl
@[simp] theorem node_parent : (f.node p).parent = f.parent p := rfl
@[simp] theorem node_isLeaf : (f.node p).isLeaf = f.isLeaf p := rfl
@[simp] theorem node_prevLeaf : (f.node p).prevLeaf = f.prevLeaf p := rfl
@[simp] theorem node_nextLeaf : (f.node p).nextLeaf = f.nextLeaf p := rfl
@[simp] theorem node_size : (f.node p).size = (f.pairs p).length := rfl

theorem node_setNode : (f.setNode p n).node = Function.update f.node p n := by
  funext r
  by_cases h : r = p
  · subst h
    simp [node, setNode]
  · simp [node, setNode, h]

@[simp] theorem node_setNode_self : (f.setNode p n).node p = n := by simp [node_setNode]

theorem node_setNode_of_ne {r : Int} (h : r ≠ p) : (f.setNode p n).node r = f.node r := by simp [node_setNode, h]

theorem field_setNode {β : Type} (g : IxNode κ → β) :
    g ∘ (f.setNode p n).node = Function.update (g ∘ f.node) p (g n) := by
  rw [node_setNode, Function.comp_update]

@[simp] theorem pairs_setNode : (f.setNode p n).pairs = Function.update f.pairs p n.pairs :=
  f.field_setNode p n IxNode.pairs

@[simp] theorem parent_setNode : (f.setNode p n).parent = Function.update f.parent p n.parent :=
  f.field_setNode p n IxNode.parent

@[simp] theorem isLeaf_setNode : (f.setNode p n).isLeaf = Function.update f.isLeaf p n.isLeaf :=
  f.field_setNode p n IxNode.isLeaf

@[simp] theorem prevLeaf_setNode : (f.setNode p n).prevLeaf = Function.update f.prevLeaf p n.prevLeaf :=
  f.field_setNode p n IxNode.prevLeaf

@[simp] theorem nextLeaf_setNode : (f.setNode p n).nextLeaf = Function.update f.nextLeaf p n.nextLeaf :=
  f.field_setNode p n IxNode.nextLeaf

@[simp] theorem fileHdr_setNode : (f.setNode p n).fileHdr = f.fileHdr := rfl
@[simp] theorem nextPage_setNode : (f.setNode p n).nextPage = f.nextPage := rfl
@[simp] theorem maxSize_setNode : (f.setNode p n).maxSize = f.maxSize := rfl
@[simp] theorem minSize_setNode : (f.setNode p n).minSize = f.minSize := rfl

theorem has_setNode {r : Int} : (f.setNode p n).Has r ↔ r = p ∨ f.Has r := by
  by_cases h : r = p <;> simp [Has, setNode, h]

/-- A write to one page keeps the others. -/
theorem pages_setNode_of_ne {r : Int} (h : r ≠ p) : (f.setNode p n).pages r = f.pages r := by simp [setNode, h]

@[simp] theorem node_setHdr (hdr : IxFileHdr) : (f.setHdr hdr).node = f.node := rfl
@[simp] theorem pairs_setHdr (hdr : IxFileHdr) : (f.setHdr hdr).pairs = f.pairs := rfl
@[simp] theorem parent_setHdr (hdr : IxFileHdr) : (f.setHdr hdr).parent = f.parent := rfl
@[simp] theorem isLeaf_setHdr (hdr : IxFileHdr) : (f.setHdr hdr).isLeaf = f.isLeaf := rfl
@[simp] theorem prevLeaf_setHdr (hdr : IxFileHdr) : (f.setHdr hdr).prevLeaf = f.prevLeaf := rfl
@[simp] theorem nextLeaf_setHdr (hdr : IxFileHdr) : (f.setHdr hdr).nextLeaf = f.nextLeaf := rfl
@[simp] theorem fileHdr_setHdr (hdr : IxFileHdr) : (f.setHdr hdr).fileHdr = hdr := rfl
@[simp] theorem nextPage_setHdr (hdr : IxFileHdr) : (f.setHdr hdr).nextPage = f.nextPage := rfl
@[simp] theorem pages_setHdr (hdr : IxFileHdr) : (f.setHdr hdr).pages = f.pages := rfl

theorem has_setHdr {hdr : IxFileHdr} {r : Int} : (f.setHdr hdr).Has r ↔ f.Has r := Iff.rfl

/-- The file after `create_node`. -/
def create : IxFile κ :=
  { (f.setHdr { f.fileHdr with numPages := f.fileHdr.numPages + 1 }).setNode f.nextPage IxNode.blank with
    nextPage := f.nextPage + 1 }

/-- The nodes `cs` with the parent `p`, set one after the other. -/
def adopt (cs : List Int) : IxFile κ := cs.foldl (fun f c => f.setNode c { f.node c with parent := p }) f

@[simp] theorem adopt_nil : f.adopt p [] = f := rfl

theorem adopt_cons (c : Int) (cs : List Int) :
    f.adopt p (c :: cs) = (f.setNode c { f.node c with parent := p }).adopt p cs := rfl

section adopt
variable (cs : List Int)

@[simp] theorem pairs_adopt : (f.adopt p cs).pairs = f.pairs := by
  induction cs generalizing f with
  | nil => rfl
  | cons c cs ih => simp [adopt_cons, ih]

@[simp] theorem isLeaf_adopt : (f.adopt p cs).isLeaf = f.isLeaf := by
  induction cs generalizing f with
  | nil => rfl
  | cons c cs ih => simp [adopt_cons, ih]

@[simp] theorem prevLeaf_adopt : (f.adopt p cs).prevLeaf = f.prevLeaf := by
  induction cs generalizing f with
  | nil => rfl
  | cons c cs ih => simp [adopt_cons, ih]

@[simp] theorem nextLeaf_adopt : (f.adopt p cs).nextLeaf = f.nextLeaf := by
  induction cs generalizing f with
  | nil => rfl
  | cons c cs ih => simp [adopt_cons, ih]

@[simp] theorem fileHdr_adopt : (f.adopt p cs).fileHdr = f.fileHdr := by
  induction cs generalizing f with
  | nil => rfl
  | cons c cs ih => simp [adopt_cons, ih]

@[simp] theorem nextPage_adopt : (f.adopt p cs).nextPage = f.nextPage := by
  induction cs generalizing f with
  | nil => rfl
  | cons c cs ih => simp [adopt_cons, ih]

theorem parent_adopt (r : Int) : (f.adopt p cs).parent r = if r ∈ cs then p else f.parent r := by
  induction cs generalizing f with
  | nil => simp
  | cons c cs ih =>
    rw [adopt_cons, ih]
    by_cases h : r ∈ cs
    · simp [h]
    · by_cases hc : r = c <;> simp [h, hc]

theorem has_adopt {r : Int} : (f.adopt p cs).Has r ↔ r ∈ cs ∨ f.Has r := by
  induction cs generalizing f with
  | nil => simp
  | cons c cs ih =>
    rw [adopt_cons, ih, has_setNode, List.mem_cons]
    tauto

theorem pages_adopt_of_notMem {r : Int} (h : r ∉ cs) : (f.adopt p cs).pages r = f.pages r := by
  induction cs generalizing f with
  | nil => rfl
  | cons c cs ih =>
    rw [List.mem_cons, not_or] at h
    rw [adopt_cons, ih _ h.2, pages_setNode_of_ne _ _ _ h.1]

end adopt

end IxFile

/-! ## The file after a split -/

namespace IxFile

variable {κ : Type} (f : IxFile κ) (p x : Int)

theorem setNode_setNode (m n : IxNode κ) : (f.setNode p m).setNode p n = f.setNode p n := by simp [setNode]

abbrev withPrev : IxFile κ := f.setNode p { f.node p with prevLeaf := x }

abbrev withNext : IxFile κ := f.setNode p { f.node p with nextLeaf := x }

@[simp] theorem pairs_create : f.create.pairs = Function.update f.pairs f.nextPage [] :=
  f.field_setNode _ _ IxNode.pairs
@[simp] theorem parent_create : f.create.parent = Function.update f.parent f.nextPage 0 :=
  f.field_setNode _ _ IxNode.parent
@[simp] theorem isLeaf_create : f.create.isLeaf = Function.update f.isLeaf f.nextPage false :=
  f.field_setNode _ _ IxNode.isLeaf
@[simp] theorem prevLeaf_create : f.create.prevLeaf = Function.update f.prevLeaf f.nextPage 0 :=
  f.field_setNode _ _ IxNode.prevLeaf
@[simp] theorem nextLeaf_create : f.create.nextLeaf = Function.update f.nextLeaf f.nextPage 0 :=
  f.field_setNode _ _ IxNode.nextLeaf
@[simp] theorem fileHdr_create : f.create.fileHdr = { f.fileHdr with numPages := f.fileHdr.numPages + 1 } := rfl
@[simp] theorem nextPage_create : f.create.nextPage = f.nextPage + 1 := rfl
@[simp] theorem maxSize_create : f.create.maxSize = f.maxSize := rfl

theorem has_create {r : Int} : f.create.Has r ↔ r = f.nextPage ∨ f.Has r := f.has_setNode _ _

theorem node_create_of_ne {r : Int} (h : r ≠ f.nextPage) : f.create.node r = f.node r := f.node_setNode_of_ne _ _ h

theorem pages_create_of_ne {r : Int} (h : r ≠ f.nextPage) : f.create.pages r = f.pages r :=
  f.pages_setNode_of_ne _ _ h

/-- The pairs from the middle on in a new node. -/
def cut : IxFile κ :=
  let pos := (f.pairs p).length / 2
  (f.create.setNode f.nextPage ⟨f.parent p, f.isLeaf p, 0, 0, (f.pairs p).drop pos⟩).setNode p
    { f.node p with pairs := (f.pairs p).take pos }

section cut
variable {f p}

theorem pairs_cut : (f.cut p).pairs = Function.update (Function.update f.pairs f.nextPage
    ((f.pairs p).drop ((f.pairs p).length / 2))) p ((f.pairs p).take ((f.pairs p).length / 2)) := by
  simp [cut]

variable (h : p ≠ f.nextPage)
include h

theorem parent_cut : (f.cut p).parent = Function.update f.parent f.nextPage (f.parent p) := by
  simp [cut, h]

theorem isLeaf_cut : (f.cut p).isLeaf = Function.update f.isLeaf f.nextPage (f.isLeaf p) := by
  simp [cut, h]

theorem prevLeaf_cut : (f.cut p).prevLeaf = Function.update f.prevLeaf f.nextPage 0 := by
  simp [cut, h]

theorem nextLeaf_cut : (f.cut p).nextLeaf = Function.update f.nextLeaf f.nextPage 0 := by
  simp [cut, h]

end cut

@[simp] theorem fileHdr_cut : (f.cut p).fileHdr = { f.fileHdr with numPages := f.fileHdr.numPages + 1 } := rfl
@[simp] theorem nextPage_cut : (f.cut p).nextPage = f.nextPage + 1 := rfl

theorem has_cut {r : Int} : (f.cut p).Has r ↔ r = p ∨ r = f.nextPage ∨ f.Has r := by
  simp [cut, has_setNode, has_create]

theorem pages_cut_of_ne {r : Int} (hp : r ≠ p) (hq : r ≠ f.nextPage) : (f.cut p).pages r = f.pages r := by
  rw [cut, pages_setNode_of_ne _ _ _ hp, pages_setNode_of_ne _ _ _ hq, pages_create_of_ne _ hq]

end IxFile

/-! ## The operations of a node -/

namespace IxIndexHandle

variable {κ α : Type} {f f' : IxFile κ} {p q c : Int} {e : κ × Rid} {i : Nat}

/-- The file of the handle, when the pool grants every request. -/
def Shows (s : IxIndexHandle κ) (f : IxFile κ) : Prop := s.file = f ∧ s.answers = []

/-- The call returns `a` and makes `f'` of the file `f`. -/
abbrev LeadsTo (x : IxM κ α) (f : IxFile κ) (a : α) (f' : IxFile κ) : Prop := Act.Leads Shows x f a f'

theorem leadsTo_request : LeadsTo request f () f := by
  rintro s ⟨hf, ha⟩
  exact ⟨s, by simp [request, Act.run_bind, ha], hf, ha⟩

/-- A request that is granted pins the page. -/
theorem run_fetchNode {s : IxIndexHandle κ} (h : s.file.Has p) (ha : s.answers = []) :
    (fetchNode p).run s = (.ok p, s.pin p) := by
  have hp : (s.file.pages p).isSome := h
  simp [fetchNode, request, Act.run_bind, ha, hp]

theorem leadsTo_fetchNode (h : f.Has p) : LeadsTo (fetchNode p) f p f := by
  rintro s ⟨rfl, ha⟩
  exact ⟨s.pin p, run_fetchNode h ha, rfl, ha⟩

theorem leadsTo_touch : LeadsTo (touch p) f () f := by
  rintro s ⟨hf, ha⟩
  exact ⟨s.touched p, rfl, (file_touched s p).trans hf, (answers_touched s p).trans ha⟩

theorem leadsTo_unpinPage {x : IxM κ α} {a : α} (h : LeadsTo x f a f') :
    LeadsTo (do let _ ← unpinPage p; x) f a f' := by
  refine Act.Leads.ignore (fun s hs => ⟨_, (s.touched p).unpin p, rfl, ?_⟩) h
  exact ⟨(file_touched s p).trans hs.1, (answers_touched s p).trans hs.2⟩

theorem leadsTo_deletePage {x : IxM κ α} {a : α} (h : LeadsTo x f a f') :
    LeadsTo (do let _ ← deletePage p; x) f a f' := by
  refine Act.Leads.ignore (fun s hs => ⟨_, s.touched p, rfl, ?_⟩) h
  exact ⟨(file_touched s p).trans hs.1, (answers_touched s p).trans hs.2⟩

theorem leadsTo_getNode : LeadsTo (getNode p) f (f.node p) f := by
  refine Act.Leads.bind leadsTo_touch (Act.Leads.get_bind fun s hs => ?_)
  rw [hs.1]
  exact Act.Leads.pure

theorem leadsTo_modifyNode {g : IxNode κ → IxNode κ} :
    LeadsTo (modifyNode p g) f () (f.setNode p (g (f.node p))) := by
  refine Act.Leads.bind leadsTo_touch ?_
  rintro s ⟨rfl, ha⟩
  exact ⟨_, rfl, rfl, ha⟩

theorem leadsTo_modifyHdr {g : IxFileHdr → IxFileHdr} : LeadsTo (modifyHdr g) f () (f.setHdr (g f.fileHdr)) := by
  rintro s ⟨rfl, ha⟩
  exact ⟨_, rfl, rfl, ha⟩

theorem leadsTo_createNode : LeadsTo createNode f f.nextPage f.create := by
  rintro s ⟨rfl, ha⟩
  refine ⟨({ s with file := s.file.create } : IxIndexHandle κ).pin s.file.nextPage, ?_, rfl, ha⟩
  simp only [createNode, modifyHdr, request, Act.run_bind, Act.run_modify, Act.run_get, ha, Act.run_pure]
  rfl

theorem leadsTo_insertPairs {ps : List (κ × Rid)} (hi : i ≤ (f.pairs p).length)
    (hle : (f.pairs p).length + ps.length ≤ f.maxSize) : LeadsTo (insertPairs p i ps) f ()
      (f.setNode p { f.node p with pairs := (f.pairs p).take i ++ ps ++ (f.pairs p).drop i }) := by
  refine Act.Leads.bind leadsTo_touch (Act.Leads.get_bind fun s hs => ?_)
  have hf := hs.1
  subst hf
  rw [if_neg (by simpa using hi), if_neg (by simpa using hle)]
  exact leadsTo_modifyNode

theorem leadsTo_erasePair : LeadsTo (erasePair p i) f ()
    (f.setNode p { f.node p with pairs := (f.pairs p).eraseIdx i }) := leadsTo_modifyNode

theorem leadsTo_pairAt (h : (f.pairs p)[i]? = some e) : LeadsTo (pairAt p i) f e f := by
  refine Act.Leads.bind leadsTo_getNode ?_
  rw [IxFile.node_pairs, h]
  exact Act.Leads.pure

theorem leadsTo_setKey {k : κ} (h : (f.pairs p)[i]? = some e) : LeadsTo (setKey p i k) f ()
    (f.setNode p { f.node p with pairs := (f.pairs p).set i (k, e.2) }) :=
  Act.Leads.bind (leadsTo_pairAt h) leadsTo_modifyNode

/-- `find_child` finds the only entry of the child. -/
theorem leadsTo_findChild {X Y : List (κ × Rid)} (h : f.pairs p = X ++ e :: Y) (he : IxNode.child e = c)
    (hX : ∀ x ∈ X, IxNode.child x ≠ c) : LeadsTo (findChild p c) f X.length f := by
  refine Act.Leads.bind leadsTo_getNode ?_
  have hidx : (f.node p).findChild c = some X.length := IxNode.findChild_eq h he hX
  rw [hidx]
  exact Act.Leads.pure

theorem leadsTo_maintainChild (hleaf : f.isLeaf p = false) (h : (f.pairs p)[i]? = some e)
    (hc : f.Has (IxNode.child e)) : LeadsTo (maintainChild p i) f ()
      (f.setNode (IxNode.child e) { f.node (IxNode.child e) with parent := p }) := by
  refine Act.Leads.bind leadsTo_getNode ?_
  rw [if_neg (by simp [hleaf])]
  refine Act.Leads.bind (leadsTo_pairAt h) (Act.Leads.bind (leadsTo_fetchNode hc) ?_)
  exact Act.Leads.bind leadsTo_modifyNode (leadsTo_unpinPage Act.Leads.pure)

theorem leadsTo_maintainChild_leaf (hleaf : f.isLeaf p = true) : LeadsTo (maintainChild p i) f () f := by
  refine Act.Leads.bind leadsTo_getNode ?_
  rw [if_pos (by simp [hleaf])]
  exact Act.Leads.pure

/-- The loop over the children in consecutive slots. -/
theorem leadsTo_maintainChildren {ps : List (κ × Rid)} : ∀ {f : IxFile κ} {X Y : List (κ × Rid)},
    f.isLeaf p = false → f.pairs p = X ++ ps ++ Y → (∀ e ∈ ps, f.Has (IxNode.child e)) →
      LeadsTo ((List.range' X.length ps.length).forM (maintainChild p)) f () (f.adopt p (ps.map IxNode.child)) := by
  induction ps with
  | nil => exact fun _ _ _ => Act.Leads.pure
  | cons e ps ih =>
    intro f X Y hleaf h hc
    have he : (f.pairs p)[X.length]? = some e := by simp [h]
    refine Act.Leads.bind (leadsTo_maintainChild hleaf he (hc e (by simp))) ?_
    have := ih (f := f.setNode (IxNode.child e) { f.node (IxNode.child e) with parent := p }) (X := X ++ [e])
      (Y := Y) (by simp [hleaf]) (by simp [h]) fun x hx => (f.has_setNode _ _).2 (.inr (hc x (by simp [hx])))
    rw [List.map_cons, IxFile.adopt_cons]
    simpa using this

theorem leadsTo_splitPairs (hp : p ≠ f.nextPage) (hle : (f.pairs p).length ≤ f.maxSize) :
    LeadsTo (splitPairs p) f f.nextPage (f.cut p) := by
  have hle' : (f.pairs p).length - (f.pairs p).length / 2 ≤ f.maxSize := by omega
  refine Act.Leads.bind leadsTo_createNode (Act.Leads.bind leadsTo_getNode ?_)
  rw [IxFile.node_create_of_ne _ hp]
  refine Act.Leads.bind leadsTo_modifyNode (Act.Leads.bind (leadsTo_insertPairs (by simp) (by simpa using hle'))
    (Act.Leads.bind leadsTo_modifyNode ?_))
  simp only [IxFile.setNode_setNode, IxFile.node_setNode_of_ne _ _ _ hp, IxFile.node_create_of_ne _ hp]
  convert Act.Leads.pure using 1
  simp [IxFile.cut]

/-- The children of the right half of an inner node name their new parent. -/
theorem leadsTo_split_inner (hp : p ≠ f.nextPage) (hle : (f.pairs p).length ≤ f.maxSize) (hleaf : f.isLeaf p = false)
    (hc : ∀ e ∈ f.pairs p, f.Has (IxNode.child e)) : LeadsTo (split p) f f.nextPage
      ((f.cut p).adopt f.nextPage (((f.pairs p).drop ((f.pairs p).length / 2)).map IxNode.child)) := by
  refine Act.Leads.bind (leadsTo_splitPairs hp hle) (Act.Leads.bind leadsTo_getNode ?_)
  rw [if_neg (by simp [IxFile.isLeaf_cut hp, hp, hleaf])]
  refine Act.Leads.bind leadsTo_getNode (Act.Leads.bind (a := ()) ?_ Act.Leads.pure)
  have hq : (f.cut p).pairs f.nextPage = (f.pairs p).drop ((f.pairs p).length / 2) := by
    simp [IxFile.pairs_cut, hp.symm]
  rw [IxFile.node_size, hq, List.range_eq_range']
  refine leadsTo_maintainChildren (X := []) (Y := []) ?_ (by simp [hq]) fun e he => ?_
  · simp [IxFile.isLeaf_cut hp, hleaf]
  · exact (f.has_cut p).2 (.inr (.inr (hc e (List.mem_of_mem_drop he))))

/-- The new leaf is linked in behind the old one. -/
theorem leadsTo_split_leaf (hp : p ≠ f.nextPage) (hle : (f.pairs p).length ≤ f.maxSize) (hleaf : f.isLeaf p = true)
    (hn : f.Has (f.nextLeaf p)) : LeadsTo (split p) f f.nextPage
      (((((f.cut p).withPrev f.nextPage p).withNext f.nextPage (f.nextLeaf p)).withPrev (f.nextLeaf p)
        f.nextPage).withNext p f.nextPage) := by
  have hnext : (f.cut p).nextLeaf p = f.nextLeaf p := by simp [IxFile.nextLeaf_cut hp, hp]
  refine Act.Leads.bind (leadsTo_splitPairs hp hle) (Act.Leads.bind leadsTo_getNode ?_)
  rw [if_pos (by simp [IxFile.isLeaf_cut hp, hp, hleaf]), IxFile.node_nextLeaf, hnext]
  refine Act.Leads.bind leadsTo_modifyNode (Act.Leads.bind leadsTo_modifyNode (Act.Leads.bind
    (leadsTo_fetchNode ?_) (Act.Leads.bind leadsTo_modifyNode (leadsTo_unpinPage
    (Act.Leads.bind leadsTo_modifyNode Act.Leads.pure)))))
  simp [IxFile.has_setNode, IxFile.has_cut, hn]

end IxIndexHandle

end Rmdb
