/-
Access control lists (`src/server/acl.rs`).

A binding for resources of any type stands in the buckets of the type `Any`, where only a request
for that type itself looks.
-/
import Mathlib.Algebra.Group.Nat.Defs
import Mathlib.Data.Finset.Insert
import Mathlib.Data.Finset.Erase
import Bifrox.Lib.Assoc
import Bifrox.Lib.Decimal
import Bifrox.Lib.Run
import Bifrox.Lib.Text

namespace Bifrox.Server

open List Run

/-! ## Bindings -/

structure AclBinding where
  resourceType : UInt8
  resourceName : Text
  patternType : UInt8
  principal : Text
  host : Text
  operation : UInt8
  permissionType : UInt8
deriving DecidableEq

def anyResource : UInt8 := 1

inductive ResourcePatternType where
  | unknown
  | any
  | match
  | literal
  | prefixed

def ResourcePatternType.toByte : ResourcePatternType → UInt8
  | .unknown => 0
  | .any => 1
  | .match => 2
  | .literal => 3
  | .prefixed => 4

def ResourcePatternType.ofByte (byte : UInt8) : ResourcePatternType :=
  if byte = 1 then .any
  else if byte = 2 then .match
  else if byte = 3 then .literal
  else if byte = 4 then .prefixed
  else .unknown

def anyOperation : UInt8 := 1

def allOperations : UInt8 := 2

def denyPermission : UInt8 := 2

def allowPermission : UInt8 := 3

/-! ## Hosts -/

inductive IpAddr where
  | v4 (address : BitVec 32)
  | v6 (address : BitVec 128)

def sameNetwork {w : Nat} (network peer : BitVec w) (bits : Nat) : Bool :=
  if bits > w then false
  else if bits = 0 then true
  else network &&& (BitVec.allOnes w <<< (w - bits)) = peer &&& (BitVec.allOnes w <<< (w - bits))

/-- `parseIp` is `str::parse::<IpAddr>` of the standard library. -/
def cidrContains (parseIp : Text → Option IpAddr) (cidr : Text) (peer : IpAddr) : Bool :=
  if '/' ∈ cidr then
    match parseIp (cidr.takeWhile (· ≠ '/')),
        Decimal.parseBelow (2 ^ 8) (cidr.dropWhile (· ≠ '/')).tail with
    | some network, some bits =>
      match network, peer with
      | .v4 network, .v4 peer => sameNetwork network peer bits
      | .v6 network, .v6 peer => sameNetwork network peer bits
      | _, _ => false
    | _, _ => false
  else false

/-! ## Wildcards -/

/-- The two-pointer loop: `starIdx` is the last star passed and `matchIdx` how far it
reaches. -/
def globLoop (pattern text : Text) (pi ti : Nat) (starIdx : Option Nat) (matchIdx : Nat)
    (h : matchIdx ≤ ti) : Bool :=
  if ti < text.length then
    if hstar : pattern[pi]? = some '*' then
      globLoop pattern text (pi + 1) ti (some pi) ti (Nat.le_refl ti)
    else if pi < pattern.length ∧ pattern[pi]? = text[ti]? then
      globLoop pattern text (pi + 1) (ti + 1) starIdx matchIdx (Nat.le_succ_of_le h)
    else
      match starIdx with
      | some si =>
        globLoop pattern text (si + 1) (matchIdx + 1) (some si) (matchIdx + 1) (Nat.le_refl _)
      | none => false
  else ((pattern.drop pi).dropWhile (· = '*')).isEmpty
termination_by (text.length - matchIdx, (pattern.length - pi) + (text.length - ti))
decreasing_by
  · -- a star is passed, and reaches at least as far as the last one
    have hpi := (List.getElem?_eq_some_iff.mp hstar).1
    rw [Prod.lex_def]
    omega
  · rw [Prod.lex_def]
    omega
  · rw [Prod.lex_def]
    omega

def globMatch (pattern text : Text) : Bool :=
  globLoop pattern text 0 0 none 0 (Nat.le_refl 0)

/-- The text comes from the pattern by putting some string in the place of each star. -/
inductive Expands : Text → Text → Prop
  | nil : Expands [] []
  | star {p t : Text} (s : Text) (h : Expands p t) : Expands ('*' :: p) (s ++ t)
  | char {x : Char} {p t : Text} (hx : x ≠ '*') (h : Expands p t) : Expands (x :: p) (x :: t)

section Expands

variable {p t pattern text : Text} {n si pi matchIdx ti : Nat}

theorem expands_star_iff : Expands ('*' :: p) (t.drop n) ↔ ∃ k, n ≤ k ∧ Expands p (t.drop k) := by
  constructor
  · intro h
    generalize ht : t.drop n = u at h
    obtain _ | ⟨s, h⟩ | ⟨hx, -⟩ := h
    · refine ⟨n + s.length, by omega, ?_⟩
      rwa [← drop_drop, ht, drop_left]
    · exact absurd rfl hx
  · rintro ⟨k, hk, h⟩
    have hstar := h.star ((t.drop n).take (k - n))
    rwa [← Nat.add_sub_cancel' hk, ← drop_drop, Nat.add_sub_cancel_left, take_append_drop] at hstar

theorem expands_cons_iff {x : Char} (hx : x ≠ '*') :
    Expands (x :: p) (t.drop n) ↔ t[n]? = some x ∧ Expands p (t.drop (n + 1)) := by
  rw [← head?_drop, ← tail_drop]
  generalize t.drop n = u
  constructor
  · rintro (_ | _ | ⟨-, h⟩)
    · exact absurd rfl hx
    · exact ⟨rfl, h⟩
  · rintro ⟨hhead, h⟩
    obtain ⟨u, rfl⟩ := head?_eq_some_iff.mp hhead
    exact h.char hx

theorem expands_nil_iff : Expands p [] ↔ (p.dropWhile (· = '*')).isEmpty = true := by
  induction p with
  | nil => simp [Expands.nil]
  | cons x p ih =>
    by_cases hx : x = '*'
    · simpa [hx, ih] using expands_star_iff (p := p) (t := []) (n := 0)
    · simpa [hx] using expands_cons_iff hx (p := p) (t := []) (n := 0)

theorem Expands.of_append {l : Text} (hl : '*' ∉ l) (h : Expands (l ++ p) (t.drop n)) :
    Expands p (t.drop (n + l.length)) := by
  induction l generalizing n with
  | nil => exact h
  | cons x l ih =>
    rw [mem_cons, not_or] at hl
    rw [length_cons, Nat.add_comm l.length, ← Nat.add_assoc]
    exact ih hl.2 ((expands_cons_iff (Ne.symm hl.1)).mp h).2

/-- What has been passed since the last star has no star in it. -/
def Passed (pattern : Text) (si pi matchIdx ti : Nat) : Prop :=
  ∃ l, '*' ∉ l ∧ pattern.drop (si + 1) = l ++ pattern.drop pi ∧ matchIdx + l.length = ti

/-- So what comes next would be found later if the star took more. -/
theorem Passed.expands (hpassed : Passed pattern si pi matchIdx ti) (text : Text) (k : Nat)
    (hk : matchIdx < k) (h : Expands (pattern.drop (si + 1)) (text.drop k)) :
    ∃ k', ti < k' ∧ Expands (pattern.drop pi) (text.drop k') := by
  obtain ⟨l, hl, hdrop, hlen⟩ := hpassed
  exact ⟨k + l.length, by omega, .of_append hl (hdrop ▸ h)⟩

theorem not_expands_of_mismatch (hti : ti < text.length) (hstar : pattern[pi]? ≠ some '*')
    (h : ¬ (pi < pattern.length ∧ pattern[pi]? = text[ti]?)) :
    ¬ Expands (pattern.drop pi) (text.drop ti) := by
  intro hexpands
  by_cases hpi : pi < pattern.length
  · rw [List.getElem?_eq_getElem hpi] at hstar h
    rw [drop_eq_getElem_cons hpi, expands_cons_iff fun heq => hstar (congrArg some heq)] at hexpands
    exact h ⟨hpi, hexpands.1.symm⟩
  · rw [drop_eq_nil_of_le (Nat.le_of_not_lt hpi), drop_eq_getElem_cons hti] at hexpands
    cases hexpands

/-- By the recursion of the loop.  The text is matched from here on, or the last star takes more. -/
theorem globLoop_iff {starIdx : Option Nat} (h : matchIdx ≤ ti)
    (hpassed : ∀ si ∈ starIdx, Passed pattern si pi matchIdx ti) :
    globLoop pattern text pi ti starIdx matchIdx h = true ↔
      Expands (pattern.drop pi) (text.drop ti) ∨ ∃ si ∈ starIdx, ∃ k, matchIdx < k ∧
        Expands (pattern.drop (si + 1)) (text.drop k) := by
  fun_induction globLoop pattern text pi ti starIdx matchIdx h with
  | case1 pi ti starIdx matchIdx h hlt hpi ih =>
    obtain ⟨hlt, heq⟩ := List.getElem?_eq_some_iff.mp hpi
    have hdrop : pattern.drop pi = '*' :: pattern.drop (pi + 1) := by
      rw [drop_eq_getElem_cons hlt, heq]
    have hmore := fun si hsi k => (hpassed si hsi).expands text k
    rw [ih fun si hsi => ⟨[], by simp, by simp_all, rfl⟩]
    simp only [hdrop, expands_star_iff] at hmore ⊢
    grind
  | case2 pi ti starIdx matchIdx h hlt hpi hsame ih =>
    obtain ⟨hpi', heq⟩ := hsame
    rw [List.getElem?_eq_getElem hpi'] at hpi heq
    have hx : pattern[pi] ≠ '*' := fun heq => hpi (congrArg some heq)
    rw [ih fun si hsi => ?_, drop_eq_getElem_cons hpi', expands_cons_iff hx]
    · simp [heq]
    · obtain ⟨l, hl, hdrop, hlen⟩ := hpassed si hsi
      refine ⟨l ++ [pattern[pi]], ?_, ?_, ?_⟩
      · simp [hl, Ne.symm hx]
      · rw [hdrop, append_assoc, singleton_append, ← drop_eq_getElem_cons hpi']
      · rw [length_append, length_singleton]
        omega
  | case3 pi ti matchIdx h hlt hpi hother si ih =>
    rw [ih fun si' hsi' => ⟨[], by simp, by simp_all, rfl⟩]
    have hnot := not_expands_of_mismatch hlt hpi hother
    grind
  | case4 pi ti matchIdx h hlt hpi hother =>
    simp [not_expands_of_mismatch hlt hpi hother]
  | case5 pi ti =>
    have hempty : ∀ k, ti ≤ k → text.drop k = [] := fun k hk => drop_eq_nil_of_le (by omega)
    rw [← expands_nil_iff, hempty ti (Nat.le_refl _)]
    have hmore := fun si hsi k => (hpassed si hsi).expands text k
    grind

/-- A wildcard pattern matches what it expands to and nothing else. -/
theorem globMatch_iff_expands (pattern text : Text) :
    globMatch pattern text = true ↔ Expands pattern text := by
  rw [globMatch, globLoop_iff _ (by simp)]
  simp

end Expands

/-! ## Rules -/

structure AclRequest where
  principal : Text
  host : Text
  operation : UInt8
  resourceType : UInt8
  resourceName : Text

namespace AclBinding

/-- Any host, the host itself, or a network it lies in. -/
def matchesHost (parseIp : Text → Option IpAddr) (rule : AclBinding) (host : Text) : Bool :=
  rule.host = ['*'] || rule.host = host ||
    ('/' ∈ rule.host && (parseIp host).any (fun ip => cidrContains parseIp rule.host ip))

/-- The wildcard name matches under every pattern type.  An unknown pattern type is
taken for a literal one. -/
def matchesName (rule : AclBinding) (resourceName : Text) : Bool :=
  rule.resourceName = ['*'] || match ResourcePatternType.ofByte rule.patternType with
    | .prefixed => rule.resourceName.isPrefixOf resourceName
    | .match | .any => globMatch rule.resourceName resourceName
    | .literal | .unknown => rule.resourceName = resourceName

def matchesRule (parseIp : Text → Option IpAddr) (rule : AclBinding) (request : AclRequest) :
    Bool :=
  (rule.resourceType = anyResource || rule.resourceType = request.resourceType) &&
    (rule.operation = anyOperation || rule.operation = allOperations ||
      rule.operation = request.operation) &&
    (rule.principal = ['*'] || rule.principal = request.principal) &&
    rule.matchesHost parseIp request.host && rule.matchesName request.resourceName

/-- Only a literal pattern with a concrete name has a bucket of its own. -/
def bucketKey (binding : AclBinding) : Option (UInt8 × Text) :=
  if binding.patternType = ResourcePatternType.literal.toByte ∧ binding.resourceName ≠ ['*'] then
    some (binding.resourceType, binding.resourceName)
  else none

end AclBinding

/-! ## The manager -/

structure AclManager where
  literal : AList (fun _ : UInt8 × Text => List AclBinding)
  patterned : AList (fun _ : UInt8 => List AclBinding)

namespace AclManager

def new : AclManager := { literal := ∅, patterned := ∅ }

/-- The bucket a binding belongs in, if there is one yet. -/
def bucketOf (m : AclManager) (binding : AclBinding) : Option (List AclBinding) :=
  match binding.bucketKey with
  | some key => m.literal.lookup key
  | none => m.patterned.lookup binding.resourceType

def setBucket (m : AclManager) (binding : AclBinding) (bucket : List AclBinding) : AclManager :=
  match binding.bucketKey with
  | some key => { m with literal := m.literal.insert key bucket }
  | none => { m with patterned := m.patterned.insert binding.resourceType bucket }

def addAcl (m : AclManager) (binding : AclBinding) : AclManager × Bool :=
  let bucket := (m.bucketOf binding).getD []
  if binding ∈ bucket then (m.setBucket binding bucket, false)
  else (m.setBucket binding (bucket ++ [binding]), true)

def removeAcl (m : AclManager) (binding : AclBinding) : AclManager × Bool :=
  match m.bucketOf binding with
  | some bucket =>
    let kept := bucket.filter (· ≠ binding)
    (m.setBucket binding kept, kept.length ≠ bucket.length)
  | none => (m, false)

def isEmpty (m : AclManager) : Bool :=
  m.literal.entries.all (fun entry => entry.2.isEmpty) &&
    m.patterned.entries.all (fun entry => entry.2.isEmpty)

def candidates (m : AclManager) (request : AclRequest) : List AclBinding :=
  (m.literal.lookup (request.resourceType, request.resourceName)).getD [] ++
    (m.patterned.lookup request.resourceType).getD []

def authorize (parseIp : Text → Option IpAddr) (m : AclManager) (request : AclRequest)
    (superUsers : List Text) (aclsEnabled : Bool) : Bool :=
  if !aclsEnabled then true
  else if superUsers.any (fun u => u = request.principal || u = ['*']) then true
  else if m.isEmpty then superUsers.any (fun u => u = request.principal)
  else if (m.candidates request).any (fun b =>
      b.permissionType = denyPermission && b.matchesRule parseIp request) then false
  else (m.candidates request).any (fun b =>
      b.permissionType = allowPermission && b.matchesRule parseIp request)

end AclManager

/-! ## Calls, and the flat set of bindings -/

inductive AclCall where
  | add (binding : AclBinding)
  | remove (binding : AclBinding)

def AclManager.step (m : AclManager) : AclCall → AclManager
  | .add binding => (m.addAcl binding).1
  | .remove binding => (m.removeAcl binding).1

/-- What the calls mean: a set of bindings. -/
def flatStep (stored : Finset AclBinding) : AclCall → Finset AclBinding
  | .add binding => insert binding stored
  | .remove binding => stored.erase binding

section Decision

variable (parseIp : Text → Option IpAddr) (stored : Finset AclBinding) (request : AclRequest)

def Ruled (permission : UInt8) : Prop :=
  ∃ b ∈ stored, b.permissionType = permission ∧ b.matchesRule parseIp request = true

/-- The decision over all stored bindings: deny overrides allow, and the default is to
deny. -/
def Permits (superUsers : List Text) : Prop :=
  (∃ u ∈ superUsers, u = request.principal ∨ u = ['*']) ∨
    ¬ Ruled parseIp stored request denyPermission ∧ Ruled parseIp stored request allowPermission

def RuledByType (permission : UInt8) : Prop :=
  ∃ b ∈ stored, b.resourceType = request.resourceType ∧ b.permissionType = permission ∧
    b.matchesRule parseIp request = true

/-- The bindings for any resource type do not change the decision on a request for another type. -/
structure Unaffected : Prop where
  deny : Ruled parseIp stored request denyPermission →
    RuledByType parseIp stored request denyPermission ∨
      ¬ RuledByType parseIp stored request allowPermission
  allow : Ruled parseIp stored request allowPermission →
    Ruled parseIp stored request denyPermission ∨ RuledByType parseIp stored request allowPermission

end Decision

/-! ## The index -/

/-- The place of a binding: a type and a name, or a type. -/
def AclBinding.slot (binding : AclBinding) : (UInt8 × Text) ⊕ UInt8 :=
  match binding.bucketKey with
  | some key => .inl key
  | none => .inr binding.resourceType

namespace AclManager

def bindingsAt (m : AclManager) : (UInt8 × Text) ⊕ UInt8 → List AclBinding
  | .inl key => (m.literal.lookup key).getD []
  | .inr resourceType => (m.patterned.lookup resourceType).getD []

/-- Each binding stands at its own place, and those that do are the stored ones. -/
structure Indexes (m : AclManager) (stored : Finset AclBinding) : Prop where
  placed : ∀ slot, ∀ b ∈ m.bindingsAt slot, b.slot = slot
  filed : ∀ b, b ∈ stored ↔ b ∈ m.bindingsAt b.slot

variable {m : AclManager} {stored : Finset AclBinding} {b : AclBinding} {bucket : List AclBinding}

theorem getD_bucketOf (m : AclManager) (b : AclBinding) :
    (m.bucketOf b).getD [] = m.bindingsAt b.slot := by
  unfold bucketOf AclBinding.slot
  cases b.bucketKey with
  | some => rfl
  | none => rfl

theorem bindingsAt_setBucket {slot : (UInt8 × Text) ⊕ UInt8} :
    (m.setBucket b bucket).bindingsAt slot =
      if slot = b.slot then bucket else m.bindingsAt slot := by
  unfold setBucket AclBinding.slot
  cases b.bucketKey with
  | some key =>
    cases slot with
    | inl key' =>
      by_cases hkey : key' = key
      · subst hkey
        simp [bindingsAt]
      · simp [bindingsAt, hkey]
    | inr => simp [bindingsAt]
  | none =>
    cases slot with
    | inl => simp [bindingsAt]
    | inr resourceType =>
      by_cases htype : resourceType = b.resourceType
      · subst htype
        simp [bindingsAt]
      · simp [bindingsAt, htype]

theorem Indexes.setBucket (h : m.Indexes stored)
    {stored' : Finset AclBinding} (hplaced : ∀ b' ∈ bucket, b'.slot = b.slot)
    (hfiled : ∀ b', b'.slot = b.slot → (b' ∈ stored' ↔ b' ∈ bucket))
    (hothers : ∀ b', b'.slot ≠ b.slot → (b' ∈ stored' ↔ b' ∈ stored)) :
    (m.setBucket b bucket).Indexes stored' := by
  constructor
  · intro slot b' hb'
    rw [bindingsAt_setBucket] at hb'
    split at hb'
    · rename_i hslot
      exact (hplaced b' hb').trans hslot.symm
    · exact h.placed slot b' hb'
  · intro b'
    rw [bindingsAt_setBucket]
    split
    · rename_i hslot
      exact hfiled b' hslot
    · rename_i hslot
      exact (hothers b' hslot).trans (h.filed b')

theorem Indexes.addAcl (h : m.Indexes stored) (b : AclBinding) :
    (m.addAcl b).1.Indexes (insert b stored) := by
  have hothers : ∀ b', b'.slot ≠ b.slot → (b' ∈ insert b stored ↔ b' ∈ stored) := by
    intro b' hslot
    have hne : b' ≠ b := fun heq => hslot (heq ▸ rfl)
    rw [Finset.mem_insert, or_iff_right hne]
  unfold AclManager.addAcl
  rw [getD_bucketOf]
  by_cases hmem : b ∈ m.bindingsAt b.slot
  · simp only [if_pos hmem]
    refine h.setBucket (fun b' hb' => h.placed b.slot b' hb') (fun b' hslot => ?_) hothers
    rw [Finset.mem_insert, h.filed b', hslot]
    constructor
    · rintro (rfl | hb')
      · exact hmem
      · exact hb'
    · exact .inr
  · simp only [if_neg hmem]
    refine h.setBucket (fun b' hb' => ?_) (fun b' hslot => ?_) hothers
    · rcases mem_append.mp hb' with hb' | hb'
      · exact h.placed b.slot b' hb'
      · rw [mem_singleton.mp hb']
    · rw [Finset.mem_insert, h.filed b', hslot, mem_append, mem_singleton, or_comm]

theorem Indexes.removeAcl (h : m.Indexes stored) (b : AclBinding) :
    (m.removeAcl b).1.Indexes (stored.erase b) := by
  have hbucket := getD_bucketOf m b
  unfold AclManager.removeAcl
  cases hfound : m.bucketOf b with
  | some =>
    rw [hfound, Option.getD_some] at hbucket
    subst hbucket
    refine h.setBucket (fun b' hb' => ?_) (fun b' hslot => ?_) (fun b' hslot => ?_)
    · exact h.placed b.slot b' (mem_of_mem_filter hb')
    · rw [Finset.mem_erase, h.filed b', hslot, mem_filter, decide_eq_true_eq, and_comm]
    · have hne : b' ≠ b := fun heq => hslot (heq ▸ rfl)
      rw [Finset.mem_erase, and_iff_right hne]
  | none =>
    rw [hfound, Option.getD_none] at hbucket
    have hmem : b ∉ stored := by
      rw [h.filed b, ← hbucket]
      exact not_mem_nil
    rw [Finset.erase_eq_of_notMem hmem]
    exact h

theorem indexes_new : AclManager.new.Indexes ∅ := by
  constructor
  · intro slot b hb
    cases slot with
    | inl => cases hb
    | inr => cases hb
  · intro b
    cases b.slot with
    | inl => exact ⟨fun hb => absurd hb (Finset.notMem_empty b), nofun⟩
    | inr =>
      exact ⟨fun hb => absurd hb (Finset.notMem_empty b), nofun⟩

/-- The manager after any calls indexes the flat set of the same calls. -/
theorem indexes_run {calls : List AclCall} :
    (run AclManager.step AclManager.new calls).Indexes (run flatStep ∅ calls) := by
  have hrun : ∀ (m : AclManager) (stored : Finset AclBinding), m.Indexes stored →
      (run AclManager.step m calls).Indexes (run flatStep stored calls) := by
    induction calls with
    | nil => exact fun _ _ h => h
    | cons call calls ih =>
      intro m stored h
      cases call with
      | add binding => exact ih _ _ (h.addAcl binding)
      | remove binding => exact ih _ _ (h.removeAcl binding)
  exact hrun _ _ indexes_new

/-! ## The decision -/

variable {parseIp : Text → Option IpAddr} {request : AclRequest} {permission : UInt8}

theorem slot_of_matchesRule (htype : b.resourceType = request.resourceType)
    (hmatch : b.matchesRule parseIp request = true) :
    b.slot = .inl (request.resourceType, request.resourceName) ∨
      b.slot = .inr request.resourceType := by
  unfold AclBinding.slot AclBinding.bucketKey
  split
  · rename_i key hkey
    split at hkey
    · rename_i hliteral
      obtain rfl := Option.some.inj hkey
      have hname : b.matchesName request.resourceName = true := (Bool.and_eq_true_iff.mp hmatch).2
      have hpattern : ResourcePatternType.ofByte b.patternType = .literal := by
        rw [hliteral.1]
        rfl
      simp only [AclBinding.matchesName, hpattern, hliteral.2, decide_false, Bool.false_or,
        decide_eq_true_eq] at hname
      exact .inl (by rw [htype, hname])
    · exact absurd hkey nofun
  · exact .inr (by rw [htype])

theorem resourceType_of_slot {resourceType : UInt8} {name : Text}
    (h : b.slot = .inl (resourceType, name) ∨ b.slot = .inr resourceType) :
    b.resourceType = resourceType := by
  unfold AclBinding.slot AclBinding.bucketKey at h
  split at h
  · rename_i key hkey
    split at hkey
    · obtain rfl := Option.some.inj hkey
      rcases h with h | h
      · exact (Prod.mk.inj (Sum.inl.inj h)).1
      · exact absurd h nofun
    · exact absurd hkey nofun
  · rcases h with h | h
    · exact absurd h nofun
    · exact Sum.inr.inj h

theorem Indexes.mem_candidates (h : m.Indexes stored) : b ∈ m.candidates request ↔
    b ∈ stored ∧ (b.slot = .inl (request.resourceType, request.resourceName) ∨
      b.slot = .inr request.resourceType) := by
  have hsplit : m.candidates request =
      m.bindingsAt (.inl (request.resourceType, request.resourceName)) ++
        m.bindingsAt (.inr request.resourceType) := rfl
  rw [hsplit, mem_append, h.filed b]
  constructor
  · rintro (hb | hb)
    · have hslot := h.placed _ b hb
      exact ⟨hslot ▸ hb, .inl hslot⟩
    · have hslot := h.placed _ b hb
      exact ⟨hslot ▸ hb, .inr hslot⟩
  · rintro ⟨hb, hslot | hslot⟩
    · exact .inl (hslot ▸ hb)
    · exact .inr (hslot ▸ hb)

theorem Indexes.any_candidates (h : m.Indexes stored) : (m.candidates request).any (fun b =>
      b.permissionType = permission && b.matchesRule parseIp request) = true ↔
    RuledByType parseIp stored request permission := by
  rw [any_eq_true]
  constructor
  · rintro ⟨b, hb, hrule⟩
    obtain ⟨hstored, hslot⟩ := h.mem_candidates.mp hb
    obtain ⟨hpermission, hmatch⟩ := Bool.and_eq_true_iff.mp hrule
    exact ⟨b, hstored, resourceType_of_slot hslot, of_decide_eq_true hpermission, hmatch⟩
  · rintro ⟨b, hstored, htype, hpermission, hmatch⟩
    refine ⟨b, h.mem_candidates.mpr ⟨hstored, slot_of_matchesRule htype hmatch⟩, ?_⟩
    exact Bool.and_eq_true_iff.mpr ⟨decide_eq_true hpermission, hmatch⟩

theorem candidates_of_isEmpty (h : m.isEmpty = true) : m.candidates request = [] := by
  obtain ⟨hliteral, hpatterned⟩ := Bool.and_eq_true_iff.mp h
  have hnone : ∀ {α : Type} [DecidableEq α] (buckets : AList (fun _ : α => List AclBinding))
      (key : α), buckets.entries.all (fun entry => entry.2.isEmpty) = true →
        (buckets.lookup key).getD [] = [] := by
    intro α _ buckets key hall
    cases hlookup : buckets.lookup key with
    | none => rfl
    | some =>
      have hmem := AList.mem_lookup_iff.mp (Option.mem_def.mpr hlookup)
      exact isEmpty_iff.mp (all_eq_true.mp hall _ hmem)
  unfold candidates
  rw [hnone m.literal _ hliteral, hnone m.patterned _ hpatterned]
  rfl

theorem Indexes.authorize_iff (h : m.Indexes stored) {superUsers : List Text} :
    m.authorize parseIp request superUsers true = true ↔
      (∃ u ∈ superUsers, u = request.principal ∨ u = ['*']) ∨
        ¬ RuledByType parseIp stored request denyPermission ∧
          RuledByType parseIp stored request allowPermission := by
  have hsuper : superUsers.any (fun u => u = request.principal || u = ['*']) = true ↔
      ∃ u ∈ superUsers, u = request.principal ∨ u = ['*'] := by
    simp
  have hdeny : _ ↔ RuledByType parseIp stored request denyPermission :=
    h.any_candidates
  have hallow : _ ↔ RuledByType parseIp stored request allowPermission :=
    h.any_candidates
  unfold authorize
  simp only [Bool.not_true, Bool.false_eq_true, if_false]
  by_cases hexempt : superUsers.any (fun u => u = request.principal || u = ['*']) = true
  · rw [if_pos hexempt]
    exact ⟨fun _ => .inl (hsuper.mp hexempt), fun _ => rfl⟩
  · rw [if_neg hexempt, or_iff_right (mt hsuper.mpr hexempt), ← hdeny, ← hallow]
    split
    · -- a principal that is listed would have been exempt
      rename_i hempty
      rw [candidates_of_isEmpty hempty]
      have hunlisted : ¬ superUsers.any (fun u => u = request.principal) = true := by
        intro hlisted
        obtain ⟨u, hu, heq⟩ := any_eq_true.mp hlisted
        exact hexempt (any_eq_true.mpr ⟨u, hu, by simp [of_decide_eq_true heq]⟩)
      exact ⟨fun hlisted => absurd hlisted hunlisted,
        fun hrule => absurd hrule.2 Bool.false_ne_true⟩
    · split
      · rename_i hdenied
        exact ⟨fun hfalse => absurd hfalse Bool.false_ne_true, fun hrule => absurd hdenied hrule.1⟩
      · rename_i hdenied
        exact ⟨fun hallowed => ⟨hdenied, hallowed⟩, fun hrule => hrule.2⟩

theorem RuledByType.ruled (h : RuledByType parseIp stored request permission) :
    Ruled parseIp stored request permission := by
  obtain ⟨b, hb, -, hrule⟩ := h
  exact ⟨b, hb, hrule⟩

/-- After any calls, a request is decided as over the flat set of bindings exactly
when it is one of a super user or the bindings for any resource type do not affect
it. -/
theorem authorize_iff_permits_iff (parseIp : Text → Option IpAddr) (calls : List AclCall)
    (request : AclRequest) (superUsers : List Text) :
    ((run AclManager.step AclManager.new calls).authorize parseIp request superUsers true = true ↔
        Permits parseIp (run flatStep ∅ calls) request superUsers) ↔
      (∃ u ∈ superUsers, u = request.principal ∨ u = ['*']) ∨
        Unaffected parseIp (run flatStep ∅ calls) request := by
  rw [indexes_run.authorize_iff, Permits]
  by_cases hsuper : ∃ u ∈ superUsers, u = request.principal ∨ u = ['*']
  · exact ⟨fun _ => .inl hsuper, fun _ => ⟨fun _ => .inl hsuper, fun _ => .inl hsuper⟩⟩
  · rw [or_iff_right hsuper, or_iff_right hsuper, or_iff_right hsuper]
    have hdeny : RuledByType parseIp (run flatStep ∅ calls) request denyPermission →
        Ruled parseIp (run flatStep ∅ calls) request denyPermission := RuledByType.ruled
    have hallow : RuledByType parseIp (run flatStep ∅ calls) request allowPermission →
        Ruled parseIp (run flatStep ∅ calls) request allowPermission := RuledByType.ruled
    constructor
    · intro hiff
      constructor
      · intro hdenied
        by_contra hnot
        rw [not_or, not_not] at hnot
        exact (hiff.mp hnot).1 hdenied
      · intro hallowed
        by_contra hnot
        rw [not_or] at hnot
        exact hnot.2 (hiff.mpr ⟨hnot.1, hallowed⟩).2
    · intro hsame
      constructor
      · rintro ⟨hdenied, hallowed⟩
        refine ⟨fun hd => ?_, hallow hallowed⟩
        exact (hsame.deny hd).elim hdenied (fun hnot => hnot hallowed)
      · rintro ⟨hdenied, hallowed⟩
        exact ⟨mt hdeny hdenied, (hsame.allow hallowed).resolve_left hdenied⟩

/-- Everyone may read everything, and nobody may do anything with any resource. -/
def denyAnyType : List AclCall :=
  [.add { resourceType := 2, resourceName := ['*'], patternType := 3, principal := ['*'],
          host := ['*'], operation := 2, permissionType := 3 },
    .add { resourceType := anyResource, resourceName := ['*'], patternType := 3, principal := ['*'],
           host := ['*'], operation := 2, permissionType := 2 }]

/-- The read of a topic matches both rules and is allowed. -/
theorem not_permits_denyAnyType :
    ¬ ((run AclManager.step AclManager.new denyAnyType).authorize (fun _ => none)
          ⟨['u'], ['h'], 3, 2, ['t']⟩ [] true = true ↔
        Permits (fun _ => none) (run flatStep ∅ denyAnyType) ⟨['u'], ['h'], 3, 2, ['t']⟩ []) := by
  have hallowed : (run AclManager.step AclManager.new denyAnyType).authorize (fun _ => none)
      ⟨['u'], ['h'], 3, 2, ['t']⟩ [] true = true := by
    decide +kernel
  intro hiff
  rcases hiff.mp hallowed with ⟨u, hu, -⟩ | ⟨hdenied, -⟩
  · cases hu
  · refine hdenied ⟨_, Finset.mem_insert_self _ _, rfl, ?_⟩
    decide +kernel

end AclManager

end Bifrox.Server
