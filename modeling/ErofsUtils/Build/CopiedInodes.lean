import ErofsUtils.Build.Mkfs
import ErofsUtils.Build.Tree
import ErofsUtils.Rust.TwoRuns

/-! # Inodes that are stored alike

The compact format keeps no nanoseconds, and of a time what is left of its distance from the
epoch. Inodes that agree on what their format keeps are laid out at the same places and
stored as the same bytes. -/
namespace ErofsUtils.Build
open ErofsUtils.Rust ErofsUtils.Bytes ErofsUtils.Metadata ErofsUtils.Store

def InodeInfo.withTimes (inode : InodeInfo) (mtime : UInt64) (mtimeNsec : UInt32) : InodeInfo :=
  { inode with mtime, mtimeNsec }

/-- The inodes differ in their times at most, and not in what is kept of them. -/
inductive InodeInfo.CopyOf (epoch : UInt64) (inode : InodeInfo) : InodeInfo → Prop where
  | mk {mtime : UInt64} {mtimeNsec : UInt32}
      (hkept : (mtime - epoch).toUInt32 = (inode.mtime - epoch).toUInt32)
      (hexact : inode.isExtended = true → mtime = inode.mtime ∧ mtimeNsec = inode.mtimeNsec) :
      InodeInfo.CopyOf epoch inode (inode.withTimes mtime mtimeNsec)

variable {epoch : UInt64} {inode copy : InodeInfo} {inodes copies : List InodeInfo}
  {chunkbits : Nat} {layout : MetadataLayout} {ε : Type}

/-- An update that does not look at the times, and keeps them. -/
theorem InodeInfo.CopyOf.update (h : inode.CopyOf epoch copy) {f : InodeInfo → InodeInfo}
    (hf : ∀ (inode : InodeInfo) (mtime : UInt64) (mtimeNsec : UInt32),
      f (inode.withTimes mtime mtimeNsec) = (f inode).withTimes mtime mtimeNsec)
    (hext : (f inode).isExtended = inode.isExtended) : (f inode).CopyOf epoch (f copy) := by
  obtain @⟨mtime, mtimeNsec, hkept, hexact⟩ := h
  have htimes : f inode = (f inode).withTimes inode.mtime inode.mtimeNsec :=
    hf inode inode.mtime inode.mtimeNsec
  have hmtime : (f inode).mtime = inode.mtime := by rw [htimes]; rfl
  have hnsec : (f inode).mtimeNsec = inode.mtimeNsec := by rw [htimes]; rfl
  rw [hf]
  refine .mk ?_ ?_
  · rw [hmtime]
    exact hkept
  · rw [hext, hmtime, hnsec]
    exact hexact

theorem InodeInfo.CopyOf.place (h : inode.CopyOf epoch copy) (off nid : Nat) :
    (inode.place off nid).CopyOf epoch (copy.place off nid) :=
  h.update (fun _ _ _ => rfl) rfl

theorem InodeInfo.CopyOf.setParentNid (h : inode.CopyOf epoch copy) (nid : Nat) :
    (inode.setParentNid nid).CopyOf epoch (copy.setParentNid nid) := by
  refine h.update ?_ ?_
  · rintro ⟨_, _, _, _, _, _, _, _, _, _, _, data, _⟩ _ _
    cases data <;> rfl
  · unfold InodeInfo.setParentNid
    cases inode.data <;> rfl

theorem InodeInfo.CopyOf.setDirData (h : inode.CopyOf epoch copy) (startblk len : Nat) :
    (inode.setDirData startblk len).CopyOf epoch (copy.setDirData startblk len) := by
  refine h.update ?_ ?_
  · rintro ⟨_, _, _, _, _, _, _, _, _, _, _, data, _⟩ _ _
    cases data <;> rfl
  · unfold InodeInfo.setDirData
    cases inode.data <;> rfl

theorem InodeInfo.CopyOf.setChildren (h : inode.CopyOf epoch copy) (children : List DirEntry) :
    (inode.setChildren children).CopyOf epoch (copy.setChildren children) := by
  refine h.update ?_ ?_
  · rintro ⟨_, _, _, _, _, _, _, _, _, _, _, data, _⟩ _ _
    cases data <;> rfl
  · unfold InodeInfo.setChildren
    cases inode.data <;> rfl

/-! ## Their bytes -/

theorem InodeInfo.CopyOf.inodeHeader (h : inode.CopyOf epoch copy) (datalayout : UInt16)
    (nlink1 : Bool) (iNb : UInt16) (iSize : UInt64) (iU : UInt32) :
    inodeHeader copy epoch datalayout nlink1 iNb iSize iU =
      inodeHeader inode epoch datalayout nlink1 iNb iSize iU := by
  obtain @⟨mtime, mtimeNsec, hkept, hexact⟩ := h
  by_cases hext : inode.isExtended = true
  · obtain ⟨rfl, rfl⟩ := hexact hext
    rfl
  · have hext' : ¬ (inode.withTimes mtime mtimeNsec).isExtended = true := hext
    unfold Build.inodeHeader
    rw [if_neg hext, if_neg hext', ← hkept]
    rfl

/-- **The bytes** of both are the same. -/
theorem InodeInfo.CopyOf.serializeInode (h : inode.CopyOf epoch copy) (chunkbits : Nat) :
    serializeInode copy epoch chunkbits = serializeInode inode epoch chunkbits := by
  have hheader := h.inodeHeader
  obtain @⟨mtime, mtimeNsec, -, -⟩ := h
  have hkind : ∀ buf blkszbits xattrSize,
      serializeKind buf (inode.withTimes mtime mtimeNsec) epoch chunkbits blkszbits xattrSize =
        serializeKind buf inode epoch chunkbits blkszbits xattrSize := by
    intro buf blkszbits xattrSize
    unfold serializeKind
    simp only [hheader]
    rfl
  unfold Build.serializeInode
  simp only [hkind]
  rfl

/-! ## Their places -/

/-- What a function reads off both. -/
theorem InodeInfo.CopyOf.same {α : Type} (h : inode.CopyOf epoch copy) {f : InodeInfo → α}
    (hf : ∀ (inode : InodeInfo) (mtime : UInt64) (mtimeNsec : UInt32),
      f (inode.withTimes mtime mtimeNsec) = f inode) : f copy = f inode := by
  obtain ⟨-, -⟩ := h
  exact hf _ _ _

theorem map_copies {α : Type} {f : InodeInfo → α} (h : List.Forall₂ (InodeInfo.CopyOf epoch) inodes copies)
    (hf : ∀ (inode : InodeInfo) (mtime : UInt64) (mtimeNsec : UInt32),
      f (inode.withTimes mtime mtimeNsec) = f inode) : copies.map f = inodes.map f := by
  induction h with
  | nil => rfl
  | cons h _ ih => rw [List.map_cons, List.map_cons, h.same hf, ih]

theorem agree_getAt {α β : Type} {R : α → β → Prop} {as : List α} {bs : List β}
    (h : List.Forall₂ R as bs) (i : Nat) :
    Agree R (getAt as i : Outcome ε α) (getAt bs i : Outcome ε β) := by
  unfold getAt
  induction h generalizing i with
  | nil => exact .error _ _
  | cons hab _ ih =>
    cases i with
    | zero => exact .ok hab
    | succ i => exact ih i

theorem agree_updateAt {α β : Type} {R : α → β → Prop} {as : List α} {bs : List β}
    (h : List.Forall₂ R as bs) {f : α → α} {g : β → β} (hfg : ∀ a b, R a b → R (f a) (g b)) (i : Nat) :
    Agree (List.Forall₂ R) (updateAt as i f : Outcome ε (List α)) (updateAt bs i g : Outcome ε (List β)) := by
  unfold updateAt
  rw [h.length_eq]
  split
  · refine .ok ?_
    clear * - h hfg
    induction h generalizing i with
    | nil => cases i <;> exact .nil
    | cons hab hrest ih =>
      cases i with
      | zero => exact .cons (hfg _ _ hab) hrest
      | succ i => exact .cons hab (ih i)
  · exact .error _ _

section
variable (h : List.Forall₂ (InodeInfo.CopyOf epoch) inodes copies)
include h

theorem allocInodes_copies (layout : MetadataLayout) (chunkbits blkszbits : Nat) :
    List.Forall₂ (InodeInfo.CopyOf epoch) (allocInodes layout chunkbits blkszbits inodes).1
        (allocInodes layout chunkbits blkszbits copies).1 ∧
      (allocInodes layout chunkbits blkszbits copies).2 =
        (allocInodes layout chunkbits blkszbits inodes).2 := by
  induction h generalizing layout with
  | nil => exact ⟨.nil, rfl⟩
  | @cons inode copy _ _ hcopy _ ih =>
    have hsize : inodeMetaSize copy chunkbits blkszbits = inodeMetaSize inode chunkbits blkszbits :=
      hcopy.same (f := fun i => inodeMetaSize i chunkbits blkszbits) fun _ _ _ => rfl
    rw [allocInodes, allocInodes, hsize]
    obtain ⟨hrest, hlayout⟩ := ih (layout.allocInode (inodeMetaSize inode chunkbits blkszbits)).2
    exact ⟨.cons (hcopy.place _ _) hrest, hlayout⟩

theorem setParents_copies (parentNid : Nat) (idxs : List Nat) :
    Agree (List.Forall₂ (InodeInfo.CopyOf epoch)) (setParents inodes parentNid idxs)
      (setParents copies parentNid idxs) := by
  induction idxs generalizing inodes copies with
  | nil => exact .ok h
  | cons idx idxs ih =>
    refine (agree_updateAt h (fun _ _ h => h.setParentNid parentNid) idx).bind fun _ _ h => ih h

theorem setParentsAll_copies (infos : List (Nat × List Nat)) :
    Agree (List.Forall₂ (InodeInfo.CopyOf epoch)) (setParentsAll inodes infos)
      (setParentsAll copies infos) := by
  induction infos generalizing inodes copies with
  | nil => exact .ok h
  | cons info infos ih =>
    obtain ⟨parentNid, idxs⟩ := info
    exact (setParents_copies h parentNid idxs).bind fun _ _ h => ih h

theorem setParentNids_copies :
    Agree (List.Forall₂ (InodeInfo.CopyOf epoch)) (setParentNids inodes) (setParentNids copies) := by
  refine (agree_getAt h 0).bind fun root copy hroot => ?_
  have hnid : copy.nid = root.nid := hroot.same (f := InodeInfo.nid) fun _ _ _ => rfl
  rw [hnid]
  refine (agree_updateAt h (fun _ _ h => h.setParentNid root.nid) 0).bind fun is cs h => ?_
  dsimp only
  have hdirs : cs.map childDirs = is.map childDirs := map_copies h fun _ _ _ => rfl
  have hinfos := congrArg (List.filterMap id) hdirs
  rw [List.filterMap_map, List.filterMap_map] at hinfos
  rw [show cs.filterMap childDirs = is.filterMap childDirs from hinfos]
  exact setParentsAll_copies h _

theorem dirChildren_copies (des : List DirEntry) :
    Agree Eq (dirChildren inodes des) (dirChildren copies des) := by
  induction des with
  | nil => exact .ok rfl
  | cons de des ih =>
    refine (agree_getAt h de.inodeIdx).bind fun child copy hchild => ?_
    have hnid : copy.nid = child.nid := hchild.same (f := InodeInfo.nid) fun _ _ _ => rfl
    refine ih.bind_same fun children => ?_
    rw [hnid]
    exact .ok rfl

theorem dirInfosFrom_copies {rest restCopies : List InodeInfo} (idx : Nat)
    (hrest : List.Forall₂ (InodeInfo.CopyOf epoch) rest restCopies) :
    Agree Eq (dirInfosFrom inodes idx rest) (dirInfosFrom copies idx restCopies) := by
  induction hrest generalizing idx with
  | nil => exact .ok rfl
  | @cons inode _ _ _ hcopy _ ih =>
    obtain ⟨-, -⟩ := hcopy
    unfold dirInfosFrom
    dsimp only [InodeInfo.withTimes]
    cases inode.data with
    | directory children startblk dirDataSize parentNid =>
      refine (dirChildren_copies h children).bind_same fun children => ?_
      exact (ih (idx + 1)).bind_same fun infos => .ok rfl
    | _ => exact ih (idx + 1)

theorem storeDirs_copies (layout : MetadataLayout) (infos : List DirInfo) :
    Agree (fun x y => x.1 = y.1 ∧ List.Forall₂ (InodeInfo.CopyOf epoch) x.2 y.2)
      (storeDirs layout inodes infos) (storeDirs layout copies infos) := by
  induction infos generalizing layout inodes copies with
  | nil => exact .ok ⟨rfl, h⟩
  | cons info infos ih =>
    unfold storeDirs storeDir
    rw [bind_assoc, bind_assoc]
    refine (agree_self (fun _ => rfl) _).bind_same fun dirData => ?_
    dsimp only
    rw [bind_assoc, bind_assoc]
    refine (agree_self (fun _ => rfl) _).bind_same fun layout => ?_
    rw [bind_assoc, bind_assoc]
    refine (agree_updateAt h (fun _ _ h => h.setDirData _ _) info.idx).bind fun _ _ h => ?_
    exact ih h layout

theorem storeInodes_copies (layout : MetadataLayout) (chunkbits : Nat) :
    storeInodes layout epoch chunkbits copies = storeInodes layout epoch chunkbits inodes := by
  induction h generalizing layout with
  | nil => rfl
  | @cons inode copy _ _ hcopy _ ih =>
    have hoff : copy.metaOffset = inode.metaOffset :=
      hcopy.same (f := InodeInfo.metaOffset) fun _ _ _ => rfl
    unfold storeInodes
    rw [hcopy.serializeInode, hoff]
    simp only [ih]

/-- **The layout** of copies has the same bytes. -/
theorem layOut_copies (chunkbits : Nat) :
    Agree (fun x y => List.Forall₂ (InodeInfo.CopyOf epoch) x.1 y.1 ∧ x.2 = y.2)
      (layOut inodes epoch chunkbits) (layOut copies epoch chunkbits) := by
  obtain ⟨halloc, hlayout⟩ := allocInodes_copies h .new chunkbits erofsBlkszbits.toNat
  unfold layOut
  dsimp only
  rw [hlayout]
  refine (setParentNids_copies halloc).bind fun _ _ h => ?_
  refine (dirInfosFrom_copies h 0 h).bind_same fun infos => ?_
  refine (storeDirs_copies h _ infos).bind ?_
  rintro ⟨layout, placed⟩ ⟨_, copied⟩ ⟨rfl, h⟩
  dsimp only
  rw [storeInodes_copies h]
  exact (agree_self (fun _ => rfl) _).bind_same fun layout => .ok ⟨h, rfl⟩

end
end ErofsUtils.Build
