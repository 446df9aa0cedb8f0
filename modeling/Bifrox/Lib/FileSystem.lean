/-
A directory of files, and what of it a crash leaves.

A handle keeps its inode when the name is removed or given to another one.  After a crash every
inode has its synced bytes, and the directory is as the completed operations left it.
-/
import Mathlib.Logic.Function.Basic

structure Inode where
  data : List UInt8
  synced : List UInt8

/-- Inodes from `next` on are not used yet, and no two names have one in common. -/
structure FileSystem (Name : Type*) where
  inode : Nat → Inode
  next : Nat
  dir : Name → Option Nat
  lt_next : ∀ {name i}, dir name = some i → i < next
  injective : ∀ {name name' i}, dir name = some i → dir name' = some i → name = name'

structure Handle where
  inode : Nat
  pos : Nat
deriving DecidableEq

namespace FileSystem

open Function

variable {Name : Type*}

def empty : FileSystem Name where
  inode _ := { data := [], synced := [] }
  next := 0
  dir _ := none
  lt_next := nofun
  injective := nofun

/-! ## Contents -/

variable (fs : FileSystem Name)

def modify (i : Nat) (f : Inode → Inode) : FileSystem Name :=
  { fs with inode := update fs.inode i (f (fs.inode i)) }

/-- Bytes written over others at a position, after zeros if that is past the end. -/
def overwrite (data : List UInt8) (pos : Nat) (bytes : List UInt8) : List UInt8 :=
  data.take pos ++ List.replicate (pos - data.length) 0 ++ bytes ++ data.drop (pos + bytes.length)

def write (h : Handle) (bytes : List UInt8) : FileSystem Name × Handle :=
  (fs.modify h.inode fun file => { file with data := overwrite file.data h.pos bytes },
    { h with pos := h.pos + bytes.length })

def setLen (i : Nat) (length : Nat) : FileSystem Name :=
  fs.modify i fun file => { file with data := file.data.take length }

def sync (i : Nat) : FileSystem Name :=
  fs.modify i fun file => { file with synced := file.data }

def crash : FileSystem Name :=
  { fs with inode := fun i => { data := (fs.inode i).synced, synced := (fs.inode i).synced } }

/-! ## Names -/

variable [DecidableEq Name]

theorem dir_update_eq {dir : Name → Option Nat} {name other : Name} {value : Option Nat} {i : Nat}
    (h : update dir name value other = some i) :
    other = name ∧ value = some i ∨ other ≠ name ∧ dir other = some i := by
  by_cases hname : other = name
  · rw [hname, update_self] at h
    exact Or.inl ⟨hname, h⟩
  · rw [update_of_ne hname] at h
    exact Or.inr ⟨hname, h⟩

def unlink (fs : FileSystem Name) (name : Name) : FileSystem Name where
  inode := fs.inode
  next := fs.next
  dir := update fs.dir name none
  lt_next := by
    intro other i h
    rcases dir_update_eq h with ⟨-, hnone⟩ | ⟨-, hold⟩
    · cases hnone
    · exact fs.lt_next hold
  injective := by
    intro name₁ name₂ i h₁ h₂
    rcases dir_update_eq h₁ with ⟨-, hnone⟩ | ⟨-, hold₁⟩
    · cases hnone
    · rcases dir_update_eq h₂ with ⟨-, hnone⟩ | ⟨-, hold₂⟩
      · cases hnone
      · exact fs.injective hold₁ hold₂

/-- Let a name refer to an inode that no other name refers to. -/
def link (fs : FileSystem Name) (name : Name) (i : Nat) (hlt : i < fs.next)
    (hfree : ∀ other, fs.dir other = some i → other = name) : FileSystem Name where
  inode := fs.inode
  next := fs.next
  dir := update fs.dir name (some i)
  lt_next := by
    intro other j h
    rcases dir_update_eq h with ⟨-, hnew⟩ | ⟨-, hold⟩
    · exact Option.some.inj hnew ▸ hlt
    · exact fs.lt_next hold
  injective := by
    intro name₁ name₂ j h₁ h₂
    rcases dir_update_eq h₁ with ⟨rfl, hnew₁⟩ | ⟨-, hold₁⟩ <;>
      rcases dir_update_eq h₂ with ⟨rfl, hnew₂⟩ | ⟨-, hold₂⟩
    · rfl
    · exact (hfree name₂ (Option.some.inj hnew₁ ▸ hold₂)).symm
    · exact hfree name₁ (Option.some.inj hnew₂ ▸ hold₁)
    · exact fs.injective hold₁ hold₂

def alloc : FileSystem Name where
  inode := update fs.inode fs.next { data := [], synced := [] }
  next := fs.next + 1
  dir := fs.dir
  lt_next h := Nat.lt_succ_of_lt (fs.lt_next h)
  injective := fs.injective

def create (fs : FileSystem Name) (name : Name) : FileSystem Name × Nat :=
  (fs.alloc.link name fs.next (Nat.lt_succ_self _)
    (fun _ h => absurd (fs.lt_next h) (Nat.lt_irrefl _)), fs.next)

def openOrCreate (fs : FileSystem Name) (name : Name) : FileSystem Name × Nat :=
  match fs.dir name with
  | some i => (fs, i)
  | none => fs.create name

def openTruncated (fs : FileSystem Name) (name : Name) : FileSystem Name × Nat :=
  match fs.dir name with
  | some i => (fs.modify i fun file => { file with data := [] }, i)
  | none => fs.create name

/-- Give the file of one name to another.  It fails if there is none. -/
def rename (fs : FileSystem Name) (source target : Name) : Option (FileSystem Name) :=
  match h : fs.dir source with
  | none => none
  | some i =>
    some ((fs.unlink source).link target i (fs.lt_next h) (by
      intro other hother
      rcases dir_update_eq hother with ⟨-, hnone⟩ | ⟨hne, hold⟩
      · cases hnone
      · exact absurd (fs.injective hold h) hne))

/-! ## What the operations leave -/

section Lemmas

variable (fs : FileSystem Name) {name other : Name} {i j : Nat}

theorem overwrite_length {data bytes : List UInt8} :
    overwrite data data.length bytes = data ++ bytes := by
  simp [overwrite]

omit [DecidableEq Name] in
@[simp] theorem modify_inode_self (f : Inode → Inode) : (fs.modify i f).inode i = f (fs.inode i) :=
  update_self ..

omit [DecidableEq Name] in
theorem modify_inode_ne (f : Inode → Inode) (h : j ≠ i) : (fs.modify i f).inode j = fs.inode j :=
  update_of_ne h ..

omit [DecidableEq Name] in
theorem write_data {h : Handle} {bytes : List UInt8} : ((fs.write h bytes).1.inode h.inode).data =
      overwrite (fs.inode h.inode).data h.pos bytes := by
  simp [write]

omit [DecidableEq Name] in
theorem write_synced {h : Handle} {bytes : List UInt8} :
    ((fs.write h bytes).1.inode j).synced = (fs.inode j).synced := by
  by_cases hj : j = h.inode
  · subst hj
    simp [write]
  · simp [write, modify_inode_ne fs _ hj]

omit [DecidableEq Name] in
theorem sync_inode_self : (fs.sync i).inode i =
    { data := (fs.inode i).data, synced := (fs.inode i).data } := by
  simp [sync]

omit [DecidableEq Name] in
theorem sync_inode_ne (hne : j ≠ i) : (fs.sync i).inode j = fs.inode j :=
  update_of_ne hne ..

omit [DecidableEq Name] in
theorem setLen_inode_self {length : Nat} : (fs.setLen i length).inode i =
    { data := (fs.inode i).data.take length, synced := (fs.inode i).synced } := by
  simp [setLen]

@[simp] theorem create_inode_self :
    (fs.create name).1.inode fs.next = { data := [], synced := [] } :=
  update_self ..

@[simp] theorem create_dir_self : (fs.create name).1.dir name = some fs.next :=
  update_self ..

@[simp] theorem unlink_dir_self : (fs.unlink name).dir name = none := update_self ..

theorem openOrCreate_of_some (h : fs.dir name = some i) : fs.openOrCreate name = (fs, i) := by
  simp only [openOrCreate, h]

theorem openOrCreate_of_none (h : fs.dir name = none) : fs.openOrCreate name = fs.create name := by
  simp only [openOrCreate, h]

/-- A file opened with truncation is empty, and the other names and files are as they were. -/
theorem openTruncated_spec : let r := fs.openTruncated name
    r.1.dir name = some r.2 ∧ (r.1.inode r.2).data = [] ∧
      (∀ other, other ≠ name → r.1.dir other = fs.dir other) ∧
      ∀ other j, other ≠ name → fs.dir other = some j → r.2 ≠ j ∧ r.1.inode j = fs.inode j := by
  intro r
  cases h : fs.dir name with
  | some i =>
    have hr : r = (fs.modify i fun file => { file with data := [] }, i) := by
      simp only [r, openTruncated, h]
    rw [hr]
    refine ⟨h, by simp, fun _ _ => rfl, ?_⟩
    intro other j hother hj
    have hne : j ≠ i := fun hji => hother (fs.injective (hji ▸ hj) h)
    exact ⟨hne.symm, modify_inode_ne fs (fun file => { file with data := [] }) hne⟩
  | none =>
    have hr : r = fs.create name := by simp only [r, openTruncated, h]
    rw [hr]
    refine ⟨create_dir_self fs, congrArg Inode.data (create_inode_self fs), ?_, ?_⟩
    · intro other hother
      exact update_of_ne hother ..
    · intro other j hother hj
      have hlt := fs.lt_next hj
      have hne : j ≠ fs.next := by omega
      exact ⟨hne.symm, update_of_ne hne ..⟩

theorem rename_of_some {source : Name} (target : Name) (h : fs.dir source = some i) :
    ∃ fs', fs.rename source target = some fs' ∧ fs'.dir target = some i ∧ fs'.inode = fs.inode := by
  unfold rename
  split
  · next hnone =>
    rw [h] at hnone
    cases hnone
  · next i' hi' =>
    rw [h] at hi'
    obtain rfl := Option.some.inj hi'
    exact ⟨_, rfl, update_self .., rfl⟩

end Lemmas

end FileSystem
