import UntitledOs.Fs.Create
import UntitledOs.Fs.Rename

/-!
# Calls on a volume

What a call to create, unlink or rename a file does to the directories, also where it fails before
it writes.  Over any run of such calls the medium stays a volume and a file keeps its paths until a
call takes one of them away.
-/

namespace UntitledOs.Fs

open UntitledOs.Lib

variable {g : Gdata} {first total : Nat} {d d' heap : Bytes} {e : DirRecord}
  {mid mid' : List DirRecord} {dirs dirs' : DirTable} {name : Path} {n : Nat} {r : Int}
  {gone : Option Nat} {goners : List (Option Nat)}

inductive FsCall
  | create (frame : CreateFrame) (path : Path) (type : Nat)
  | unlink (frame : UnlinkFrame) (path : Path)
  | rename (frame : RenameFrame) (old new : Path)

def FsCall.run (g : Gdata) (first fuel : Nat) (d heap : Bytes) : FsCall → Option (Int × Bytes)
  | .create frame path type => Fs.create g first fuel d heap frame path type
  | .unlink frame path => Fs.unlink g fuel d heap frame path
  | .rename frame old new => Fs.rename g fuel d heap frame old new

/-- A call gives `r` and leaves these directories; the inode `gone` loses a path. -/
inductive Effect (g : Gdata) (first total : Nat) (d heap : Bytes) (dirs : DirTable) :
    FsCall → Int → DirTable → Option Nat → Prop
  | created {path num blocks n j pre e post mid type} {frame : CreateFrame}
      (place : Creatable g first total d heap dirs path (enteredName frame.freed path) num blocks n j
        pre e post)
      (file : type ≠ fsCreateTypeDir) (entered : Entered e n (enteredName frame.freed path) mid) :
      Effect g first total d heap dirs (.create frame path type) 0
        (Function.update dirs num (some (blocks.set j (pre ++ (mid ++ post))))) none
  | noName {path type} {frame : CreateFrame} (empty : (sepFnameAndDir path).2 = []) :
      Effect g first total d heap dirs (.create frame path type) fsErrInvalidFilename dirs none
  | noDir {path type err} {frame : CreateFrame} (named : (sepFnameAndDir path).2 ≠ [])
      (closed : 0#8 ∉ path)
      (parent : resolve dirs (components (sepFnameAndDir path).1) fsExt2RootInode =
        some (.error err)) :
      Effect g first total d heap dirs (.create frame path type) err dirs none
  | noInode {path type num} {frame : CreateFrame} (named : (sepFnameAndDir path).2 ≠ [])
      (closed : 0#8 ∉ path)
      (parent : resolve dirs (components (sepFnameAndDir path).1) fsExt2RootInode = some (.ok num))
      (full : findUnallocInode g first d heap (pred32 num / g.sb.inodesPerGroup) = 0) :
      Effect g first total d heap dirs (.create frame path type) fsErrNoSpace dirs none
  | unlinked {path num blocks n count} {frame : UnlinkFrame}
      (file : Removable g total d heap dirs path num blocks n count) :
      Effect g first total d heap dirs (.unlink frame path) 0
        (Function.update dirs num (some (blocks.map (cleared n)))) (some n)
  | noFile {path err} {frame : UnlinkFrame} (closed : 0#8 ∉ path)
      (target : resolve dirs (components path) fsExt2RootInode = some (.error err)) :
      Effect g first total d heap dirs (.unlink frame path) err dirs none
  | renamed {old new oldNum newNum n oldBlocks newBlocks j pre e post mid} {frame : RenameFrame}
      (file : Movable g total d dirs old new oldNum newNum n oldBlocks newBlocks j pre e post)
      (entered : Entered e n (sepFnameAndDir new).2 mid) :
      Effect g first total d heap dirs (.rename frame old new) 0
        (movedTable dirs oldNum newNum n oldBlocks (newBlocks.set j (pre ++ (mid ++ post)))) (some n)
  | noSource {old new oldNum newNum err} {frame : RenameFrame} (closed : 0#8 ∉ old ∧ 0#8 ∉ new)
      (oldParent : resolve dirs (components (sepFnameAndDir old).1) fsExt2RootInode =
        some (.ok oldNum))
      (newParent : resolve dirs (components (sepFnameAndDir new).1) fsExt2RootInode =
        some (.ok newNum))
      (target : resolve dirs (components old) fsExt2RootInode = some (.error err)) :
      Effect g first total d heap dirs (.rename frame old new) err dirs none

/-- A run of calls, each with the heap that it finds. -/
inductive FsRun (g : Gdata) (first total : Nat) :
    Bytes → DirTable → List (Option Nat) → Bytes → DirTable → Prop
  | nil (d : Bytes) (dirs : DirTable) : FsRun g first total d dirs [] d dirs
  | cons {d heap dirs call r r' dirs₁ gone d₁ goners d' dirs'}
      (effect : Effect g first total d heap dirs call r dirs₁ gone)
      (run : Returns (fun fuel => call.run g first fuel d heap) (r', d₁))
      (rest : FsRun g first total d₁ dirs₁ goners d' dirs') :
      FsRun g first total d dirs (gone :: goners) d' dirs'

theorem DirRecord.eq_of_fields {p q : DirRecord} (hnum : p.inodeNum = q.inodeNum)
    (hsize : p.size = q.size) (hname : p.name = q.name) : p = q := by
  cases p
  cases q
  subst hnum hsize hname
  rfl

theorem Entered.unique (h : Entered e n name mid) (h' : Entered e n name mid') : mid = mid' := by
  cases h with
  | reused m dead inodeNum size named =>
      cases h' with
      | reused m' _ inodeNum' size' named' =>
          rw [DirRecord.eq_of_fields (inodeNum.trans inodeNum'.symm) (size.trans size'.symm)
            (named.trans named'.symm)]
      | split _ _ live => exact absurd dead live
  | split s m live kept shrunk same inodeNum size named =>
      cases h' with
      | reused _ dead => exact absurd dead live
      | split s' m' _ kept' shrunk' same' inodeNum' size' named' =>
          have hsize : s.size = s'.size := shrunk.trans shrunk'.symm
          rw [DirRecord.eq_of_fields (kept.trans kept'.symm) hsize (same.trans same'.symm),
            DirRecord.eq_of_fields (inodeNum.trans inodeNum'.symm) (by omega)
              (named.trans named'.symm)]

/-- A call returns what its effect says and leaves a volume. -/
theorem Effect.step {call : FsCall} (h : Effect g first total d heap dirs call r dirs' gone)
    (hvolume : Volume g total d dirs) :
    ∃ d', Returns (fun fuel => call.run g first fuel d heap) (r, d') ∧ Volume g total d' dirs' := by
  have hfound : ∀ {path num}, 0#8 ∉ path →
      resolve dirs (components (sepFnameAndDir path).1) fsExt2RootInode = some (.ok num) →
      Leads g d heap (sepFnameAndDir path).1 num := fun hclosed hr =>
    hvolume.leads (fun hx => hclosed (mem_of_mem_sep.1 hx)) hr heap
  cases h with
  | created place file entered =>
      obtain ⟨d', mid', hreturns, hentered, hvolume', -⟩ := hvolume.createFile _ place file
      exact ⟨d', hreturns, entered.unique hentered ▸ hvolume'⟩
  | noName empty =>
      refine ⟨d, ?_, hvolume⟩
      simp only [FsCall.run, create, if_pos empty]
      exact Returns.const _
  | noDir named closed parent =>
      have hlookup := hvolume.fails (fun hx => closed (mem_of_mem_sep.1 hx)) parent heap
      refine ⟨d, ?_, hvolume⟩
      simp only [FsCall.run, create, if_neg named]
      exact Returns.bind (hlookup _ _) (Returns.const _)
  | noInode named closed parent full =>
      refine ⟨d, ?_, hvolume⟩
      simp only [FsCall.run, create, if_neg named]
      refine Returns.bind (hfound closed parent _ _) ?_
      simp only [if_pos full]
      exact Returns.const _
  | unlinked file =>
      obtain ⟨d', hreturns, hvolume', -⟩ := hvolume.unlinkFile file _
      exact ⟨d', hreturns, hvolume'⟩
  | noFile closed target =>
      exact ⟨d, Returns.bind (hvolume.fails closed target heap _ _) (Returns.const _), hvolume⟩
  | renamed file entered =>
      obtain ⟨d', mid', hreturns, hentered, hvolume', -⟩ := hvolume.renameFile file heap _
      exact ⟨d', hreturns, entered.unique hentered ▸ hvolume'⟩
  | noSource closed oldParent newParent target =>
      exact ⟨d, Returns.bind (hfound closed.1 oldParent _ _) (Returns.bind
        (hfound closed.2 newParent _ _) (Returns.bind (hvolume.fails closed.1 target heap _ _)
          (Returns.const _))), hvolume⟩

/-- A call takes paths away from one inode at most. -/
theorem Effect.keeps {call : FsCall} (h : Effect g first total d heap dirs call r dirs' gone)
    {comps : List Path} {i : Nat} (hi : gone ≠ some i)
    (hr : resolve dirs comps fsExt2RootInode = some (.ok i)) :
    resolve dirs' comps fsExt2RootInode = some (.ok i) := by
  cases h with
  | created place file entered =>
      exact (resolve_entered place.directory place.parent place.absent entered
        (Nat.one_le_iff_ne_zero.mp place.inode.1) place.lt place.block rfl).2 comps i hr
  | unlinked file => exact file.resolves.2 comps i (fun heq => hi (congrArg some heq.symm)) hr
  | renamed file entered =>
      exact (file.resolves entered rfl).2.2 comps i (fun heq => hi (congrArg some heq.symm)) hr
  | noName => exact hr
  | noDir => exact hr
  | noInode => exact hr
  | noFile => exact hr
  | noSource => exact hr

theorem FsRun.volume (h : FsRun g first total d dirs goners d' dirs')
    (hvolume : Volume g total d dirs) : Volume g total d' dirs' := by
  induction h with
  | nil => exact hvolume
  | cons effect run _ ih =>
      obtain ⟨d₁, hreturns, hvolume₁⟩ := effect.step hvolume
      obtain rfl := (Prod.mk.inj (run.unique hreturns)).2
      exact ih hvolume₁

theorem FsRun.keeps (h : FsRun g first total d dirs goners d' dirs') {comps : List Path} {i : Nat}
    (hi : some i ∉ goners) (hr : resolve dirs comps fsExt2RootInode = some (.ok i)) :
    resolve dirs' comps fsExt2RootInode = some (.ok i) := by
  induction h with
  | nil => exact hr
  | cons effect run _ ih =>
      rw [List.mem_cons, not_or] at hi
      exact ih hi.2 (effect.keeps (Ne.symm hi.1) hr)

end UntitledOs.Fs
