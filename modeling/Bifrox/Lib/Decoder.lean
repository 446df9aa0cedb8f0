/-
Decoders: functions that take a value off the front of a byte string or fail.

`Reads d written a` says that `d` reads `written` as `a` and leaves what follows it; `Takes d enc p`
says that what `d` took off is the encoding of the value it returned, and that the value has the
property `p`; `Yields d p` is its second half alone.  They compose along `>>=`.
-/
import Bifrox.Lib.BigEndian
import Bifrox.Lib.Text

/-- A decoder of values of `α` that fails with an error of `ε`. -/
abbrev Decoder (ε α : Type) : Type := StateT (List UInt8) (Except ε) α

namespace Decoder

open List BigEndian Except

abbrev Bytes : Type := List UInt8

variable {ε α β : Type}

/-! ## Primitives -/

def check (p : Nat → Bool) (error : ε) : Decoder ε Unit := fun src =>
  if p src.length then .ok ((), src) else .error error

variable (error : ε)

def byte : Decoder ε UInt8
  | [] => .error error
  | b :: rest => .ok (b, rest)

def take (n : Nat) (error : ε) : Decoder ε Bytes := fun src =>
  if src.length < n then .error error else .ok (src.take n, src.drop n)

def number (w : Nat) (error : ε) : Decoder ε Nat := fun src =>
  if src.length < w then .error error else .ok (split w src)

def lift (value : Option α) (error : ε) : Decoder ε α := fun src =>
  match value with
  | some a => .ok (a, src)
  | none => .error error

def many (d : Decoder ε α) : Nat → Decoder ε (List α)
  | 0 => pure []
  | n + 1 => do
    let first ← d
    let rest ← many d n
    return first :: rest

/-- A default where fewer than `least` bytes are left. -/
def orAtEnd (least : Nat) (default : α) (d : Decoder ε α) : Decoder ε α := fun src =>
  if src.length < least then .ok (default, src) else d src

def prefixed (short cut : ε) : Decoder ε Bytes := do
  let n ← number 2 short
  take n cut

def putPrefixed (bytes : Bytes) : Bytes := put 2 bytes.length ++ bytes

def text (short cut invalid : ε) : Decoder ε Text := do
  let bytes ← prefixed short cut
  lift (Text.ofUtf8 bytes) invalid

def putText (text : Text) : Bytes := putPrefixed text.utf8

def u16 : Decoder ε UInt16 := do return UInt16.ofNat (← number 2 error)

def u32 : Decoder ε UInt32 := do return UInt32.ofNat (← number 4 error)

def u64 : Decoder ε UInt64 := do return UInt64.ofNat (← number 8 error)

def putU16 (n : UInt16) : Bytes := put 2 n.toNat

def putU32 (n : UInt32) : Bytes := put 4 n.toNat

def putU64 (n : UInt64) : Bytes := put 8 n.toNat

@[simp] theorem length_putPrefixed {bytes : Bytes} :
    (putPrefixed bytes).length = 2 + bytes.length := by
  simp [putPrefixed]

@[simp] theorem length_putText {text : Text} : (putText text).length = 2 + text.utf8.length :=
  length_putPrefixed

@[simp] theorem length_putU16 {n : UInt16} : (putU16 n).length = 2 := length_put _ _

@[simp] theorem length_putU32 {n : UInt32} : (putU32 n).length = 4 := length_put _ _

@[simp] theorem length_putU64 {n : UInt64} : (putU64 n).length = 8 := length_put _ _

variable {d : Decoder ε α} {src rest : Bytes} {a : α} {b : β}

theorem bind_eq_ok {f : α → Decoder ε β} (h : (d >>= f) src = .ok (b, rest)) :
    ∃ a mid, d src = .ok (a, mid) ∧ f a mid = .ok (b, rest) := by
  change (d src).bind (fun p => f p.1 p.2) = .ok (b, rest) at h
  cases hd : d src with
  | error =>
    rw [hd] at h
    exact absurd h (by simp [Except.bind])
  | ok p =>
    rw [hd] at h
    exact ⟨p.1, p.2, rfl, h⟩

theorem bind_of_ok {src mid : Bytes} (h : d src = .ok (a, mid)) {f : α → Decoder ε β} :
    (d >>= f) src = f a mid := by
  change (d src).bind (fun p => f p.1 p.2) = f a mid
  rw [h]
  rfl

theorem pure_eq_ok {b : α} (h : (pure a : Decoder ε α) src = .ok (b, rest)) :
    a = b ∧ src = rest :=
  Prod.mk.inj (ok.inj h)

/-! ## Reading what was written -/

/-- The decoder reads the bytes as the value, whatever follows them. -/
def Reads (d : Decoder ε α) (written : Bytes) (a : α) : Prop :=
  ∀ rest, d (written ++ rest) = .ok (a, rest)

/-- The decoder reads the bytes as the value at the end of the input. -/
def ReadsAll (d : Decoder ε α) (written : Bytes) (a : α) : Prop := d written = .ok (a, [])

namespace Reads

variable {f : α → Decoder ε β} {w w' : Bytes}

theorem pure (a : α) : Reads (pure a : Decoder ε α) [] a := fun _ => rfl

section

variable (h : Reads d w a)
include h

theorem bind (h' : Reads (f a) w' b) : Reads (d >>= f) (w ++ w') b := by
  intro rest
  rw [append_assoc, bind_of_ok (h (w' ++ rest))]
  exact h' rest

theorem bindAll (h' : ReadsAll (f a) w' b) : ReadsAll (d >>= f) (w ++ w') b := by
  rw [ReadsAll, bind_of_ok (h w')]
  exact h'

theorem last (g : α → β) : Reads (do return g (← d)) w (g a) := by
  have hread := h.bind (f := fun a => Pure.pure (g a)) (Reads.pure (g a))
  rwa [append_nil] at hread

/-- What two writings that end up the same have in common. -/
theorem cancel {a' : α} {rest rest' : Bytes} (h' : Reads d w' a')
    (heq : w ++ rest = w' ++ rest') : a = a' ∧ rest = rest' := by
  have hread := h rest
  rw [heq, h' rest'] at hread
  cases hread
  exact ⟨rfl, rfl⟩

theorem all : ReadsAll d w a := by
  have hread := h []
  rwa [append_nil] at hread

end

theorem checked {p : Nat → Bool} {error : ε} (hp : ∀ more, p (w.length + more) = true)
    (h : Reads d w a) : Reads (do check p error; d) w a := by
  intro rest
  have hcheck : check p error (w ++ rest) = .ok ((), w ++ rest) := by
    rw [check, if_pos (by rw [length_append]; exact hp rest.length)]
  rw [bind_of_ok hcheck]
  exact h rest

theorem orAtEnd {least : Nat} {default : α} (h : Reads d w a) (hle : least ≤ w.length) :
    Reads (orAtEnd least default d) w a := by
  intro rest
  rw [Decoder.orAtEnd, if_neg (by rw [length_append]; omega)]
  exact h rest

end Reads

theorem ReadsAll.checked {w : Bytes} {p : Nat → Bool} {error : ε} (hp : p w.length = true)
    (h : ReadsAll d w a) : ReadsAll (do check p error; d) w a := by
  have hcheck : check p error w = .ok ((), w) := by rw [check, if_pos hp]
  rw [ReadsAll, bind_of_ok hcheck]
  exact h

section Primitives

variable (error short cut invalid : ε)

theorem reads_byte {b : UInt8} : Reads (byte error) [b] b := fun _ => rfl

theorem reads_take {bytes : Bytes} : Reads (take bytes.length error) bytes bytes := by
  intro rest
  rw [take, if_neg (by simp)]
  simp

theorem reads_number {w n : Nat} (h : n < 256 ^ w) : Reads (number w error) (put w n) n := by
  intro rest
  rw [number, if_neg (by simp), split_put, Nat.mod_eq_of_lt h]

theorem reads_lift : Reads (lift (some a) error) [] a := fun _ => rfl

theorem reads_u16 {n : UInt16} : Reads (u16 error) (putU16 n) n := by
  have h := (reads_number error (w := 2) n.toNat_lt).last UInt16.ofNat
  rwa [UInt16.ofNat_toNat] at h

theorem reads_u32 {n : UInt32} : Reads (u32 error) (putU32 n) n := by
  have h := (reads_number error (w := 4) n.toNat_lt).last UInt32.ofNat
  rwa [UInt32.ofNat_toNat] at h

theorem reads_u64 {n : UInt64} : Reads (u64 error) (putU64 n) n := by
  have h := (reads_number error (w := 8) n.toNat_lt).last UInt64.ofNat
  rwa [UInt64.ofNat_toNat] at h

theorem reads_prefixed {bytes : Bytes} (h : bytes.length < 2 ^ 16) :
    Reads (prefixed short cut) (putPrefixed bytes) bytes :=
  (reads_number short (w := 2) h).bind (reads_take cut)

theorem reads_text {text : Text} (h : text.utf8.length < 2 ^ 16) :
    Reads (Decoder.text short cut invalid) (putText text) text := by
  have hlift : Reads (lift (Text.ofUtf8 text.utf8) invalid) [] text := by
    rw [Text.ofUtf8_utf8]
    exact reads_lift invalid
  have hread := (reads_prefixed short cut h).bind
    (f := fun bytes => lift (Text.ofUtf8 bytes) invalid) hlift
  rwa [append_nil] at hread

end Primitives

theorem reads_many {enc : α → Bytes} {items : List α} (h : ∀ a ∈ items, Reads d (enc a) a) :
    Reads (many d items.length) (items.flatMap enc) items := by
  induction items with
  | nil => exact Reads.pure []
  | cons a items ih =>
    have hrest := ih fun a' ha' => h a' (mem_cons_of_mem _ ha')
    rw [flatMap_cons]
    exact (h a mem_cons_self).bind (hrest.last (a :: ·))

/-! ## Writing what was read -/

/-- What is taken off is the encoding of the value, and the value has the property. -/
def Takes (d : Decoder ε α) (enc : α → Bytes) (p : α → Prop) : Prop :=
  ∀ src a rest, d src = .ok (a, rest) → src = enc a ++ rest ∧ p a

theorem check_eq_ok {p : Nat → Bool} {error : ε} {u : Unit}
    (h : check p error src = .ok (u, rest)) : p src.length = true ∧ src = rest := by
  rw [check] at h
  split at h
  · next hp => exact ⟨hp, (Prod.mk.inj (ok.inj h)).2⟩
  · cases h

theorem lift_eq_ok {value : Option α} {error : ε} (h : lift value error src = .ok (a, rest)) :
    value = some a ∧ src = rest := by
  cases value with
  | none => exact absurd h (by simp [lift])
  | some =>
    have heq := Prod.mk.inj (ok.inj h)
    exact ⟨congrArg some heq.1, heq.2⟩

/-- Once `w` is taken off, the decoder takes off the rest of the encoding of its value. -/
def Completes (w : Bytes) (d : Decoder ε α) (enc : α → Bytes) (p : α → Prop) : Prop :=
  ∀ src a rest, d src = .ok (a, rest) → w ++ src = enc a ++ rest ∧ p a

section Completes

variable {f : α → Decoder ε β} {enc : α → Bytes} {enc' : β → Bytes} {p : α → Prop} {q : β → Prop}
  {w : Bytes}

theorem completes_pure (henc : enc' b = w) (h : q b) :
    Completes w (pure b : Decoder ε β) enc' q := by
  intro src b' rest hsrc
  obtain ⟨rfl, rfl⟩ := pure_eq_ok hsrc
  exact ⟨by rw [henc], h⟩

theorem Completes.checked {test : Nat → Bool} {error : ε}
    (h : ∀ left, test left = true → Completes w d enc p) :
    Completes w (do check test error; d) enc p := by
  intro src a rest hsrc
  obtain ⟨u, mid, hu, ha⟩ := bind_eq_ok hsrc
  obtain ⟨hpass, rfl⟩ := check_eq_ok hu
  exact h _ hpass _ _ _ ha

theorem Takes.bind (h : Takes d enc p)
    (h' : ∀ a, p a → Completes (w ++ enc a) (f a) enc' q) : Completes w (d >>= f) enc' q := by
  intro src b rest hsrc
  obtain ⟨a, mid, ha, hb⟩ := bind_eq_ok hsrc
  obtain ⟨rfl, hpa⟩ := h _ _ _ ha
  rw [← append_assoc]
  exact h' a hpa mid b rest hb

theorem Takes.last {q : α → Prop} {enc' : α → Bytes} (h : Takes d enc p)
    (h' : ∀ a, p a → enc' a = w ++ enc a ∧ q a) : Completes w d enc' q := by
  intro src a rest hsrc
  obtain ⟨rfl, hpa⟩ := h _ _ _ hsrc
  rw [← append_assoc, (h' a hpa).1]
  exact ⟨rfl, (h' a hpa).2⟩

end Completes

section Primitives

variable (error short cut invalid : ε)

theorem takes_byte : Takes (byte error) (fun b => [b]) (fun _ => True) := by
  intro src b rest h
  cases src with
  | nil => exact absurd h (by simp [byte])
  | cons =>
    have heq := Prod.mk.inj (ok.inj h)
    rw [← heq.1, ← heq.2]
    exact ⟨rfl, trivial⟩

theorem takes_take {n : Nat} : Takes (take n error) id (fun bytes => bytes.length = n) := by
  intro src bytes rest h
  rw [take] at h
  split at h
  · cases h
  · next hlen =>
    have heq := Prod.mk.inj (ok.inj h)
    rw [← heq.1, ← heq.2]
    refine ⟨(take_append_drop n src).symm, ?_⟩
    show (src.take n).length = n
    rw [length_take]
    omega

theorem takes_number {w : Nat} : Takes (number w error) (put w) (fun n => n < 256 ^ w) := by
  intro src n rest h
  rw [number] at h
  split at h
  · cases h
  · next hlen =>
    have heq := ok.inj h
    have hle : w ≤ src.length := by omega
    have hput := put_split hle
    have hlt := split_fst_lt w src
    rw [heq] at hput hlt
    exact ⟨hput.symm, hlt⟩

theorem takes_u32 : Takes (u32 error) putU32 (fun _ => True) := by
  refine (takes_number error).bind (w := []) fun n hlt => completes_pure ?_ trivial
  rw [putU32, UInt32.toNat_ofNat_of_lt' hlt, nil_append]

theorem takes_u64 : Takes (u64 error) putU64 (fun _ => True) := by
  refine (takes_number error).bind (w := []) fun n hlt => completes_pure ?_ trivial
  rw [putU64, UInt64.toNat_ofNat_of_lt' hlt, nil_append]

theorem takes_prefixed :
    Takes (prefixed short cut) putPrefixed (fun bytes => bytes.length < 2 ^ 16) := by
  refine (takes_number short).bind (w := []) fun n hlt =>
    (takes_take cut).last fun bytes hlen => ?_
  subst hlen
  exact ⟨rfl, hlt⟩

theorem takes_text :
    Takes (text short cut invalid) putText (fun text => text.utf8.length < 2 ^ 16) := by
  refine (takes_prefixed short cut).bind (w := []) fun bytes hlt src text rest h => ?_
  obtain ⟨htext, rfl⟩ := lift_eq_ok h
  have hutf8 := Text.utf8_of_ofUtf8 htext
  subst hutf8
  exact ⟨rfl, hlt⟩

end Primitives

theorem takes_many {enc : α → Bytes} {p : α → Prop} (h : Takes d enc p) {n : Nat} :
    Takes (many d n) (·.flatMap enc) (fun items => items.length = n ∧ ∀ a ∈ items, p a) := by
  induction n with
  | zero => exact completes_pure (w := []) rfl ⟨rfl, by simp⟩
  | succ n ih =>
    refine h.bind (w := []) fun a ha => ih.bind fun as has => completes_pure rfl ?_
    exact ⟨by rw [length_cons, has.1], forall_mem_cons.mpr ⟨ha, has.2⟩⟩

/-! ## Properties of what is read -/

/-- Every value that is read has the property. -/
def Yields (d : Decoder ε α) (p : α → Prop) : Prop :=
  ∀ src a rest, d src = .ok (a, rest) → p a

theorem Takes.yields {enc : α → Bytes} {p : α → Prop} (h : Takes d enc p) :
    Yields d p := fun src a rest hsrc => (h src a rest hsrc).2

namespace Yields

variable {d : Decoder ε α} {f : α → Decoder ε β} {p : α → Prop} {q : β → Prop}

theorem pure (h : q b) : Yields (Pure.pure b : Decoder ε β) q := by
  intro src b' rest hsrc
  exact (pure_eq_ok hsrc).1 ▸ h

theorem bind (h : Yields d p) (h' : ∀ a, p a → Yields (f a) q) : Yields (d >>= f) q := by
  intro src b rest hsrc
  obtain ⟨a, mid, ha, hb⟩ := bind_eq_ok hsrc
  exact h' a (h src a mid ha) mid b rest hb

theorem skip (h : ∀ a, Yields (f a) q) : Yields (d >>= f) q :=
  bind (p := fun _ => True) (fun _ _ _ _ => trivial) fun a _ => h a

theorem checked {test : Nat → Bool} {error : ε} {d : Decoder ε β}
    (h : ∀ left, test left = true → Yields d q) : Yields (do check test error; d) q := by
  intro src b rest hsrc
  obtain ⟨u, mid, hu, hb⟩ := bind_eq_ok hsrc
  exact h src.length (check_eq_ok hu).1 mid b rest hb

theorem orAtEnd {least : Nat} {default : α} (h : Yields d p) (hdefault : p default) :
    Yields (orAtEnd least default d) p := by
  intro src a rest hsrc
  rw [Decoder.orAtEnd] at hsrc
  split at hsrc
  · exact (Prod.mk.inj (ok.inj hsrc)).1 ▸ hdefault
  · exact h src a rest hsrc

end Yields

end Decoder
