import Mathlib
import Etherzero.Lib.BigEndian
import Etherzero.Lib.StateExcept
import Etherzero.Rlp.Stream
import Etherzero.Rlp.Decode
import Etherzero.Rlp.Item
import Etherzero.Lemmas.RlpValue
import Etherzero.Lemmas.RlpStream
import Etherzero.Lemmas.RlpRead

/-!
# The decoders of scalars, and how every decoder starts

Every decoder begins with `Kind`, directly or through `Bytes`, `uint` or `List`. Three properties say what follows
from that and close under the way decoders are put together: a decoder run right after a `Kind` that returned does
what it does from before it (`KindFirst`), at the end of the innermost list it reports `EOL` and reads nothing
(`EolFirst`), and it reports `EOL` nowhere else (`EolAtEnd`). The second half reads and inverts the decoders of
integers, booleans, strings, byte slices, byte arrays and big integers.
-/

namespace Etherzero.Rlp

open Etherzero.Rlp.Stream

variable {α β : Type}

/-- Right after a `Kind` that returned, the decoder does what it does from before that `Kind`. -/
def KindFirst (x : StreamM α) : Prop :=
  ∀ s s₁ kn, exec Stream.Kind s = (.ok kn, s₁) → exec x s₁ = exec x s

/-- At the end of the innermost list, with nothing cached, the decoder reports `EOL` and reads nothing. -/
def EolFirst (x : StreamM α) : Prop :=
  ∀ s, s.kind = none → s.AtEnd → exec x s = (.error .eol, { s with kinderr := none })

/-- With nothing cached, the decoder reports `EOL` only at the end of the innermost list, having read nothing. -/
def EolAtEnd (x : StreamM α) : Prop :=
  ∀ s s', s.kind = none → exec x s = (.error .eol, s') → s.AtEnd ∧ s' = { s with kinderr := none }

/-- The computation never reports `EOL`. -/
def NeverEol (x : StreamM α) : Prop := ∀ s s', exec x s ≠ (.error .eol, s')

/-- `Kind` after a `Kind` that returned: the cached information again. -/
theorem Kind_idem {s s₁ : Stream} {kn : Rlp.Kind × Nat} (h : exec Stream.Kind s = (.ok kn, s₁)) :
    exec Stream.Kind s₁ = (.ok kn, s₁) := by
  cases hk : s.kind with
  | none =>
    obtain ⟨-, s₂, -, -, rfl⟩ := Kind_inv hk h
    exact Kind_cached rfl rfl
  | some k =>
    unfold Stream.Kind at h
    cases he : s.kinderr with
    | some e => simp [exec_bind, hk, he] at h
    | none =>
      simp only [exec_bind, exec_get, hk, he, exec_pure, Prod.mk.injEq, Except.ok.injEq] at h
      obtain ⟨rfl, rfl⟩ := h
      exact Kind_cached hk he

theorem KindFirst.kind : KindFirst Stream.Kind := fun _ _ _ h => by rw [Kind_idem h, h]

theorem KindFirst.bind {x : StreamM α} {f : α → StreamM β} (hx : KindFirst x) : KindFirst (x >>= f) :=
  fun s s₁ kn h => by rw [exec_bind, exec_bind, hx s s₁ kn h]

theorem KindFirst.tryCatch {x : StreamM α} {g : Err → StreamM α} (hx : KindFirst x) : KindFirst (tryCatch x g) :=
  fun s s₁ kn h => by rw [exec_tryCatch, exec_tryCatch, hx s s₁ kn h]

theorem KindFirst.wrapped {x : StreamM α} (hx : KindFirst x) : KindFirst (wrapped x) := hx.tryCatch

theorem KindFirst.map {x : StreamM α} {f : α → β} (hx : KindFirst x) : KindFirst (f <$> x) :=
  fun s s₁ kn h => by rw [exec_map, exec_map, hx s s₁ kn h]

theorem KindFirst.observing {x : StreamM α} (hx : KindFirst x) : KindFirst (observing x) :=
  fun s s₁ kn h => by rw [exec_observing, exec_observing, hx s s₁ kn h]

theorem EolFirst.kind : EolFirst Stream.Kind := fun _ hk he => Kind_eol hk he

theorem EolFirst.bind {x : StreamM α} {f : α → StreamM β} (hx : EolFirst x) : EolFirst (x >>= f) :=
  fun s hk he => by rw [exec_bind_error (hx s hk he)]

theorem EolFirst.wrapped {x : StreamM α} (hx : EolFirst x) : EolFirst (wrapped x) :=
  fun s hk he => by rw [Rlp.wrapped, exec_tryCatch, hx s hk he]; rfl

theorem EolFirst.map {x : StreamM α} {f : α → β} (hx : EolFirst x) : EolFirst (f <$> x) :=
  fun s hk he => by rw [exec_map, hx s hk he]

theorem NeverEol.bind {x : StreamM α} {f : α → StreamM β} (hx : NeverEol x) (hf : ∀ a, NeverEol (f a)) :
    NeverEol (x >>= f) := by
  intro s s' h
  rw [exec_bind] at h
  rcases hxs : exec x s with ⟨e | a, s₁⟩
  · rw [hxs] at h
    cases h
    exact hx s s' hxs
  · rw [hxs] at h
    exact hf a s₁ s' h

theorem NeverEol.pure (a : α) : NeverEol (pure a : StreamM α) := fun _ _ h => by cases h

theorem NeverEol.throw {e : Err} (he : e ≠ .eol) : NeverEol (throw e : StreamM α) :=
  fun _ _ h => he (by cases h; rfl)

theorem NeverEol.willRead (n : Nat) : NeverEol (willRead n) := by
  intro s s' h
  unfold Stream.willRead rearm at h
  cases hst : s.stack with
  | nil =>
    by_cases hl : s.limited = true
    · by_cases hr : s.remaining < n <;> simp [exec_bind, hst, hl, hr] at h
    · simp [exec_bind, hst, hl] at h
  | cons tos rest =>
    by_cases ht : tos.size - tos.pos < n
    · simp [exec_bind, hst, ht] at h
    · by_cases hl : s.limited = true
      · by_cases hr : s.remaining < n <;> simp [exec_bind, hst, ht, hl, hr] at h
      · simp [exec_bind, hst, ht, hl] at h

theorem NeverEol.readByte : NeverEol readByte := by
  unfold Stream.readByte
  refine (NeverEol.willRead 1).bind fun _ s s' h => ?_
  simp only [exec_bind, exec_get] at h
  split at h
  · cases h
  · cases h

theorem NeverEol.readFull (n : Nat) : NeverEol (readFull n) := by
  unfold Stream.readFull
  refine (NeverEol.willRead n).bind fun _ s s' h => ?_
  simp only [exec_bind, exec_get, exec_set] at h
  split at h <;> cases h

theorem NeverEol.readUint (size : Nat) : NeverEol (readUint size) := by
  unfold Stream.readUint
  split
  · intro s s' h
    cases h
  · exact NeverEol.readByte.bind fun _ => NeverEol.pure _
  · refine (NeverEol.readFull _).bind fun buf s s' h => ?_
    split at h <;> cases h

/-- The error `readKind` records is never `EOL`. -/
theorem readKind_err_ne_eol {s s' : Stream} {k : Rlp.Kind} {n : Nat} {e : Err}
    (h : exec readKind s = (.ok (k, n, some e), s')) : e ≠ .eol := by
  rintro rfl
  unfold readKind at h
  obtain ⟨r, s₁, hb, h⟩ := exec_bind_eq_ok h
  rw [exec_observing] at hb
  rcases hrb : exec Stream.readByte s with ⟨err | b, s₂⟩
  · rw [hrb] at hb
    simp only [Prod.mk.injEq, Except.ok.injEq] at hb
    obtain ⟨rfl, rfl⟩ := hb
    simp only [exec_bind, exec_get, exec_pure, Prod.mk.injEq, Except.ok.injEq, Option.some.injEq] at h
    have h' := h.1.2.2
    unfold readKindError at h'
    split at h'
    · cases h'
    · exact NeverEol.readByte s s₂ (by rw [hrb, h'])
  rw [hrb] at hb
  simp only [Prod.mk.injEq, Except.ok.injEq] at hb
  obtain ⟨rfl, rfl⟩ := hb
  simp only [exec_bind, exec_modify] at h
  split at h
  · simp [exec_map] at h
  split at h
  · simp at h
  split at h
  · obtain ⟨r', s₃, hu, h⟩ := exec_bind_eq_ok h
    rw [exec_observing] at hu
    rcases hru : exec (readUint (b - 0xB7).toNat) { s₂ with byteval := 0 } with ⟨err | size, s₄⟩ <;>
      rw [hru] at hu <;> simp only [Prod.mk.injEq, Except.ok.injEq] at hu <;> obtain ⟨rfl, rfl⟩ := hu
    · simp only [exec_pure, Prod.mk.injEq, Except.ok.injEq, Option.some.injEq] at h
      exact NeverEol.readUint _ _ _ (by rw [hru, h.1.2.2])
    · simp only [exec_pure, Prod.mk.injEq, Except.ok.injEq] at h
      obtain ⟨⟨-, -, h⟩, -⟩ := h
      split at h <;> simp at h
  split at h
  · simp at h
  obtain ⟨r', s₃, hu, h⟩ := exec_bind_eq_ok h
  rw [exec_observing] at hu
  rcases hru : exec (readUint (b - 0xF7).toNat) { s₂ with byteval := 0 } with ⟨err | size, s₄⟩ <;>
    rw [hru] at hu <;> simp only [Prod.mk.injEq, Except.ok.injEq] at hu <;> obtain ⟨rfl, rfl⟩ := hu
  · simp only [exec_pure, Prod.mk.injEq, Except.ok.injEq, Option.some.injEq] at h
    exact NeverEol.readUint _ _ _ (by rw [hru, h.1.2.2])
  · simp only [exec_pure, Prod.mk.injEq, Except.ok.injEq] at h
    obtain ⟨⟨-, -, h⟩, -⟩ := h
    split at h <;> simp at h

theorem sizeError_ne_eol {s : Stream} {n : Nat} {e : Err} (h : sizeError s n = some e) : e ≠ .eol := by
  unfold sizeError at h
  split at h <;> split at h <;> simp at h <;> (subst h; nofun)

/-- `readKind` always returns: its errors are part of what it returns. -/
theorem readKind_ne_error (s s' : Stream) (e : Err) : exec readKind s ≠ (.error e, s') := by
  intro h
  unfold readKind at h
  rw [exec_bind, exec_observing] at h
  rcases hrb : exec Stream.readByte s with ⟨err | b, s₂⟩ <;> rw [hrb] at h
  · simp [exec_map] at h
  simp only [exec_bind, exec_modify] at h
  split_ifs at h
  · simp [exec_map] at h
  · simp at h
  · rw [exec_bind, exec_observing] at h
    rcases hru : exec (readUint (b - 0xB7).toNat) { s₂ with byteval := 0 } with ⟨_ | _, _⟩ <;> rw [hru] at h <;>
      simp at h
  · simp at h
  · rw [exec_bind, exec_observing] at h
    rcases hru : exec (readUint (b - 0xF7).toNat) { s₂ with byteval := 0 } with ⟨_ | _, _⟩ <;> rw [hru] at h <;>
      simp at h

/-- `Kind` reports `EOL` only at the end of the innermost list. -/
theorem Kind_eol_inv {s s' : Stream} (hk : s.kind = none) (h : exec Stream.Kind s = (.error .eol, s')) :
    s.AtEnd ∧ s' = { s with kinderr := none } := by
  by_cases he : s.AtEnd
  · rw [Kind_eol hk he] at h
    cases h
    exact ⟨he, rfl⟩
  exfalso
  have hne : ∀ tos rest, s.stack = tos :: rest → ¬ tos.pos = tos.size :=
    fun tos rest hst hpos => he ⟨tos, rest, hst, hpos⟩
  unfold Stream.Kind at h
  rcases hr : exec readKind { s with kinderr := none } with ⟨e | ⟨k', n', err⟩, s₁⟩
  · exact readKind_ne_error _ _ _ hr
  have hr' := hr
  rw [hk] at hr
  cases err with
  | some e =>
    rcases hst : s.stack with _ | ⟨tos, rest⟩ <;> rw [hst] at hr <;> simp [exec_bind, hk, hst, hne, hr] at h <;>
      exact readKind_err_ne_eol hr' h.1
  | none =>
    cases hse : sizeError s₁ n' with
    | some e =>
      rcases hst : s.stack with _ | ⟨tos, rest⟩ <;> rw [hst] at hr <;>
        simp [exec_bind, hk, hst, hne, hr, hse] at h <;> exact sizeError_ne_eol hse h.1
    | none =>
      rcases hst : s.stack with _ | ⟨tos, rest⟩ <;> rw [hst] at hr <;>
        simp [exec_bind, exec_map, hk, hst, hne, hr, hse] at h

theorem EolAtEnd.kind : EolAtEnd Stream.Kind := fun _ _ hk h => Kind_eol_inv hk h

theorem wrapStreamError_eq_eol {e : Err} : wrapStreamError e = .eol ↔ e = .eol := by
  cases e <;> simp [wrapStreamError]

theorem addErrorContext_eq_eol {ctx : String} {e : Err} : addErrorContext ctx e = .eol ↔ e = .eol := by
  cases e <;> simp [addErrorContext]

/-- A wrapped stream call returns a value exactly when the call does. -/
theorem exec_wrapped_ok {x : StreamM α} {s s' : Stream} {a : α} :
    exec (wrapped x) s = (.ok a, s') ↔ exec x s = (.ok a, s') := by
  rw [Rlp.wrapped, exec_tryCatch]
  rcases exec x s with ⟨e | b, s₁⟩ <;> simp

theorem EolAtEnd.bind {x : StreamM α} {f : α → StreamM β} (hx : EolAtEnd x) (hf : ∀ a, NeverEol (f a)) :
    EolAtEnd (x >>= f) := by
  intro s s' hk h
  rw [exec_bind] at h
  rcases hxs : exec x s with ⟨e | a, s₁⟩ <;> rw [hxs] at h
  · simp only [Prod.mk.injEq, Except.error.injEq] at h
    obtain ⟨rfl, rfl⟩ := h
    exact hx s s₁ hk hxs
  · exact absurd h (hf a s₁ s')

theorem EolAtEnd.wrapped {x : StreamM α} (hx : EolAtEnd x) : EolAtEnd (wrapped x) := by
  intro s s' hk h
  rw [Rlp.wrapped, exec_tryCatch] at h
  rcases hxs : exec x s with ⟨e | a, s₁⟩ <;> rw [hxs] at h
  · simp only [exec_throw, Prod.mk.injEq, Except.error.injEq, wrapStreamError_eq_eol] at h
    obtain ⟨rfl, rfl⟩ := h
    exact hx s s₁ hk hxs
  · simp at h

theorem EolAtEnd.map {x : StreamM α} {f : α → β} (hx : EolAtEnd x) : EolAtEnd (f <$> x) := by
  intro s s' hk h
  rw [exec_map] at h
  rcases hxs : exec x s with ⟨e | a, s₁⟩ <;> rw [hxs] at h
  · simp only [Prod.mk.injEq, Except.error.injEq] at h
    obtain ⟨rfl, rfl⟩ := h
    exact hx s s₁ hk hxs
  · simp at h

theorem NeverEol.wrapped {x : StreamM α} (hx : NeverEol x) : NeverEol (wrapped x) := by
  intro s s' h
  rw [Rlp.wrapped, exec_tryCatch] at h
  rcases hxs : exec x s with ⟨e | a, s₁⟩ <;> rw [hxs] at h
  · simp only [exec_throw, Prod.mk.injEq, Except.error.injEq, wrapStreamError_eq_eol] at h
    obtain ⟨rfl, rfl⟩ := h
    exact hx s s₁ hxs
  · simp at h

theorem NeverEol.map {x : StreamM α} {f : α → β} (hx : NeverEol x) : NeverEol (f <$> x) := by
  rw [← bind_pure_comp]
  exact hx.bind fun a => NeverEol.pure (f a)

theorem NeverEol.listEnd : NeverEol listEnd := by
  intro s s' h
  unfold Stream.listEnd at h
  rcases hst : s.stack with _ | ⟨tos, rest⟩
  · simp [exec_bind, hst] at h
  · by_cases hp : tos.pos = tos.size <;> simp [exec_bind, hst, hp] at h

/-- An error a decoder passes on with a field or an index added is `EOL` only if it was. -/
theorem neverEol_throw_context {e : Err} (ctx : String) (he : e ≠ .eol) :
    NeverEol (throw (addErrorContext ctx e) : StreamM α) :=
  NeverEol.throw (fun h => he (addErrorContext_eq_eol.mp h))

/-- `Kind` followed by a computation that cannot report `EOL` once `Kind` returned: `EOL` comes only from `Kind`. -/
theorem EolAtEnd.kind_bind {f : Rlp.Kind × Nat → StreamM β}
    (hf : ∀ kn s s₁ s', exec Stream.Kind s = (.ok kn, s₁) → s.kind = none → exec (f kn) s₁ ≠ (.error .eol, s')) :
    EolAtEnd (Stream.Kind >>= f) := by
  intro s s' hk h
  rw [exec_bind] at h
  rcases hks : exec Stream.Kind s with ⟨e | kn, s₁⟩ <;> rw [hks] at h
  · simp only [Prod.mk.injEq, Except.error.injEq] at h
    obtain ⟨rfl, rfl⟩ := h
    exact EolAtEnd.kind s s₁ hk hks
  · exact absurd h (hf kn s s₁ s' hks hk)

/-- A decoder that begins with `Kind`, directly or through a stream method: the three properties at once. -/
structure StartsWithKind (x : StreamM α) : Prop where
  kindFirst : KindFirst x
  eolFirst : EolFirst x
  eolAtEnd : EolAtEnd x

theorem StartsWithKind.kind_bind {f : Rlp.Kind × Nat → StreamM β}
    (hf : ∀ kn s s₁ s', exec Stream.Kind s = (.ok kn, s₁) → s.kind = none → exec (f kn) s₁ ≠ (.error .eol, s')) :
    StartsWithKind (Stream.Kind >>= f) :=
  ⟨KindFirst.kind.bind, EolFirst.kind.bind, EolAtEnd.kind_bind hf⟩

/-- `kind_bind` for a continuation that never reports `EOL`. -/
theorem StartsWithKind.kind_bind_never {f : Rlp.Kind × Nat → StreamM β} (hf : ∀ kn, NeverEol (f kn)) :
    StartsWithKind (Stream.Kind >>= f) :=
  StartsWithKind.kind_bind fun kn _ s₁ s' _ _ => hf kn s₁ s'

theorem StartsWithKind.bind {x : StreamM α} {f : α → StreamM β} (hx : StartsWithKind x)
    (hf : ∀ a, NeverEol (f a)) : StartsWithKind (x >>= f) :=
  ⟨hx.kindFirst.bind, hx.eolFirst.bind, hx.eolAtEnd.bind hf⟩

theorem StartsWithKind.wrapped {x : StreamM α} (hx : StartsWithKind x) : StartsWithKind (Rlp.wrapped x) :=
  ⟨hx.kindFirst.wrapped, hx.eolFirst.wrapped, hx.eolAtEnd.wrapped⟩

theorem StartsWithKind.map {x : StreamM α} {f : α → β} (hx : StartsWithKind x) : StartsWithKind (f <$> x) :=
  ⟨hx.kindFirst.map, hx.eolFirst.map, hx.eolAtEnd.map⟩

/-- A decoder that returns what a stream method read begins as the method does. -/
theorem StartsWithKind.wrapped_pure {x : StreamM α} {g : α → Val} (hx : StartsWithKind x) :
    StartsWithKind (Rlp.wrapped x >>= fun a => pure (g a)) :=
  hx.wrapped.bind fun a => NeverEol.pure (g a)

namespace Stream

theorem startsWithKind_bytes : StartsWithKind bytes := by
  unfold bytes
  refine StartsWithKind.kind_bind_never fun ⟨k, n⟩ => ?_
  cases k with
  | byte =>
    intro s s' h
    simp [exec_bind, exec_map, exec_rearm] at h
  | string =>
    refine (NeverEol.readFull n).bind fun b => ?_
    split
    · exact NeverEol.throw nofun
    · exact NeverEol.pure b
  | list => exact NeverEol.throw nofun

theorem startsWithKind_uint (maxbits : Nat) : StartsWithKind (uint maxbits) := by
  unfold uint
  refine StartsWithKind.kind_bind_never fun ⟨k, n⟩ => ?_
  cases k with
  | byte =>
    intro s s' h
    by_cases h0 : s.byteval = 0 <;> simp [exec_bind, exec_map, h0, exec_rearm] at h
  | string =>
    dsimp only
    split
    · exact NeverEol.throw nofun
    refine fun s s' h => ?_
    rw [exec_bind, exec_observing] at h
    rcases hru : exec (readUint n) s with ⟨e | v, s₁⟩ <;> rw [hru] at h
    · by_cases hc : e = .canonSize
      · subst hc
        simp at h
      · simp only [exec_throw, Prod.mk.injEq, Except.error.injEq] at h
        obtain ⟨rfl, rfl⟩ := h
        exact NeverEol.readUint n s s₁ hru
    · dsimp only at h
      split at h <;> simp at h
  | list => exact NeverEol.throw nofun

theorem startsWithKind_bool : StartsWithKind bool := by
  unfold bool
  refine ⟨(startsWithKind_uint 8).kindFirst.bind, (startsWithKind_uint 8).eolFirst.bind,
    (startsWithKind_uint 8).eolAtEnd.bind fun num => ?_⟩
  split
  · exact NeverEol.pure false
  · exact NeverEol.pure true
  · exact NeverEol.throw nofun

theorem startsWithKind_list : StartsWithKind list := by
  unfold list
  refine StartsWithKind.kind_bind_never fun ⟨k, n⟩ s s' h => ?_
  by_cases hk : k = .list <;> simp [exec_bind, exec_map, hk] at h

end Stream

/-- From a stream with nothing cached whose next bytes are `enc`, within the stream's bounds, the decoder returns `x`
and reads exactly `enc`. -/
def Decodes (d : StreamM α) (enc : List UInt8) (x : α) : Prop :=
  ∀ s rest, s.kind = none → s.limited = true → s.Fits enc.length → s.r = enc ++ rest →
    ∃ s', exec d s = (.ok x, s') ∧ Read s s' enc.length

/-- What a decoder that returned from a stream with nothing cached read: the encoding of an item that `P` relates to
the result, after which nothing is cached. -/
def DecodedFrom (d : StreamM α) (P : α → Item → Prop) : Prop :=
  ∀ s s' x, s.kind = none → s.limited = true → exec d s = (.ok x, s') →
    ∃ i, s.r = i.encode ++ s'.r ∧ Read s s' i.encode.length ∧ P x i

theorem Decodes.wrapped_pure {x : StreamM α} {g : α → β} {enc : List UInt8} {a : α} (h : Decodes x enc a) :
    Decodes (Rlp.wrapped x >>= fun a => pure (g a)) enc (g a) := by
  intro s rest hk hl hf hr
  obtain ⟨s', hx, hread⟩ := h s rest hk hl hf hr
  exact ⟨s', by rw [exec_bind_ok (exec_wrapped_ok.mpr hx)]; rfl, hread⟩

theorem DecodedFrom.wrapped_pure {x : StreamM α} {g : α → β} {P : α → Item → Prop} (h : DecodedFrom x P) :
    DecodedFrom (Rlp.wrapped x >>= fun a => pure (g a)) (fun v i => ∃ a, v = g a ∧ P a i) := by
  intro s s' v hk hl hd
  obtain ⟨a, s₁, hx, hp⟩ := exec_bind_eq_ok hd
  simp only [exec_pure, Prod.mk.injEq, Except.ok.injEq] at hp
  obtain ⟨rfl, rfl⟩ := hp
  obtain ⟨i, hr, hread, hP⟩ := h s s₁ a hk hl (exec_wrapped_ok.mp hx)
  exact ⟨i, hr, hread, a, rfl, hP⟩

theorem DecodedFrom.mono {d : StreamM α} {P Q : α → Item → Prop} (h : DecodedFrom d P)
    (hPQ : ∀ x i, P x i → Q x i) : DecodedFrom d Q := by
  intro s s' x hk hl hd
  obtain ⟨i, hr, hread, hP⟩ := h s s' x hk hl hd
  exact ⟨i, hr, hread, hPQ x i hP⟩

namespace Stream

theorem decodes_bytes {bs : List UInt8} (hn : bs.length < 2 ^ 64) : Decodes bytes (Item.str bs).encode bs :=
  fun _ _ hk hl hf hr => bytes_ok hk hl hn hf hr

theorem decodedFrom_bytes : DecodedFrom bytes fun bs i => i = .str bs :=
  fun _ _ _ hk hl h => ⟨_, (bytes_inv hk hl h).1, (bytes_inv hk hl h).2, rfl⟩

theorem decodes_uint {n maxbits : Nat} (hn : (beBytes n).length ≤ maxbits / 8) (hmax : maxbits ≤ 64) :
    Decodes (uint maxbits) (Item.str (beBytes n)).encode n :=
  fun _ _ hk hl hf hr => uint_ok hk hl hn hmax hf hr

theorem decodedFrom_uint {maxbits : Nat} (h8 : 8 ≤ maxbits) :
    DecodedFrom (uint maxbits) fun n i => i = .str (beBytes n) ∧ (beBytes n).length ≤ maxbits / 8 :=
  fun _ _ _ hk hl h => ⟨_, (uint_inv hk hl h8 h).1, (uint_inv hk hl h8 h).2.1, rfl, (uint_inv hk hl h8 h).2.2⟩

theorem decodes_bool (b : Bool) : Decodes bool (Item.str (if b then [1] else [])).encode b :=
  fun _ _ hk hl hf hr => bool_ok hk hl hf hr

theorem decodedFrom_bool : DecodedFrom bool fun b i => i = .str (if b then [1] else []) :=
  fun _ _ _ hk hl h => ⟨_, (bool_inv hk hl h).1, (bool_inv hk hl h).2, rfl⟩

/-- `uint` on a single byte whose kind is cached: the zero byte is non-canonical and stays cached. -/
theorem exec_uint_peek_byte (s : Stream) (maxbits : Nat) (b : UInt8) :
    exec (uint maxbits) (s.peek .byte 0 b) =
      if b = 0 then (.error .canonInt, s.peek .byte 0 b) else (.ok b.toNat, { s.peek .byte 0 b with kind := none }) := by
  unfold uint
  rw [exec_bind_ok (Kind_cached rfl rfl)]
  by_cases h0 : b = 0 <;> simp [exec_bind, exec_map, h0, exec_rearm]

end Stream

theorem UintKind.two_pow_bits (k : UintKind) : 2 ^ k.bits = 256 ^ (k.bits / 8) := by
  cases k <;> norm_num [UintKind.bits]

theorem UintKind.bits_bounds (k : UintKind) : 8 ≤ k.bits ∧ k.bits ≤ 64 := by
  cases k <;> simp [UintKind.bits]

theorem decodeUint_decodes {k : UintKind} {n : Nat} (hn : n < 2 ^ k.bits) :
    Decodes (decodeUint k) (Item.str (beBytes n)).encode (.uint n) :=
  (decodes_uint (length_beBytes_le_iff.mpr (k.two_pow_bits ▸ hn)) k.bits_bounds.2).wrapped_pure

theorem decodeUint_decodedFrom (k : UintKind) :
    DecodedFrom (decodeUint k) fun v i => ∃ n, v = .uint n ∧ i = .str (beBytes n) ∧ n < 2 ^ k.bits :=
  ((decodedFrom_uint k.bits_bounds.1).wrapped_pure).mono fun _ _ ⟨n, hv, hi, hlen⟩ =>
    ⟨n, hv, hi, k.two_pow_bits ▸ length_beBytes_le_iff.mp hlen⟩

theorem decodeBool_decodes (b : Bool) : Decodes decodeBool (Item.str (if b then [1] else [])).encode (.bool b) :=
  (decodes_bool b).wrapped_pure

theorem decodeBool_decodedFrom :
    DecodedFrom decodeBool fun v i => ∃ b, v = .bool b ∧ i = .str (if b then [1] else []) :=
  decodedFrom_bool.wrapped_pure

theorem decodeString_decodes {bs : List UInt8} (hn : bs.length < 2 ^ 64) :
    Decodes decodeString (Item.str bs).encode (.bytes bs) :=
  (decodes_bytes hn).wrapped_pure

theorem decodeString_decodedFrom : DecodedFrom decodeString fun v i => ∃ bs, v = .bytes bs ∧ i = .str bs :=
  decodedFrom_bytes.wrapped_pure

/-- A byte slice is decoded as a string is. -/
theorem decodeByteSlice_eq : decodeByteSlice = decodeString := rfl

theorem decodeBigInt_decodes {bs : List UInt8} (hn : bs.length < 2 ^ 64) :
    Decodes decodeBigInt (Item.str bs).encode (.ptr (some (.bigInt (beValue bs)))) :=
  (decodes_bytes hn).wrapped_pure

theorem decodeBigInt_decodedFrom :
    DecodedFrom decodeBigInt fun v i => ∃ bs, v = .ptr (some (.bigInt (beValue bs))) ∧ i = .str bs :=
  decodedFrom_bytes.wrapped_pure

theorem decodeBigIntNoPtr_decodes {bs : List UInt8} (hn : bs.length < 2 ^ 64) :
    Decodes decodeBigIntNoPtr (Item.str bs).encode (.bigInt (beValue bs)) :=
  (decodes_bytes hn).wrapped_pure

theorem decodeBigIntNoPtr_decodedFrom :
    DecodedFrom decodeBigIntNoPtr fun v i => ∃ bs, v = .bigInt (beValue bs) ∧ i = .str bs :=
  decodedFrom_bytes.wrapped_pure

theorem startsWithKind_decodeUint (k : UintKind) : StartsWithKind (decodeUint k) :=
  (startsWithKind_uint k.bits).wrapped_pure

theorem startsWithKind_decodeBool : StartsWithKind decodeBool := startsWithKind_bool.wrapped_pure

theorem startsWithKind_decodeString : StartsWithKind decodeString := startsWithKind_bytes.wrapped_pure

theorem startsWithKind_decodeBigInt : StartsWithKind decodeBigInt := startsWithKind_bytes.wrapped_pure

theorem startsWithKind_decodeBigIntNoPtr : StartsWithKind decodeBigIntNoPtr := startsWithKind_bytes.wrapped_pure

theorem startsWithKind_decodeByteArray (vlen : Nat) : StartsWithKind (decodeByteArray vlen) := by
  unfold decodeByteArray
  refine StartsWithKind.kind_bind_never fun ⟨k, n⟩ => ?_
  cases k with
  | byte =>
    dsimp only
    split
    · exact NeverEol.throw nofun
    split
    · exact NeverEol.throw nofun
    intro s s' h
    rw [exec_bind, exec_observing] at h
    rcases hu : exec (uint 64) s with ⟨_ | _, _⟩ <;> rw [hu] at h <;> simp at h
  | string =>
    dsimp only
    split
    · exact NeverEol.throw nofun
    split
    · exact NeverEol.throw nofun
    refine (NeverEol.readFull vlen).bind fun slice => ?_
    split
    · exact NeverEol.throw nofun
    · exact NeverEol.pure _
  | list => exact NeverEol.throw nofun

/-- A byte array reads a string of exactly its length; the one-byte array a single byte other than zero. -/
theorem decodeByteArray_decodes {vlen : Nat} {bs : List UInt8} (hlen : bs.length = vlen) (h0 : bs ≠ [0])
    (hn : bs.length < 2 ^ 64) : Decodes (decodeByteArray vlen) (Item.str bs).encode (.bytes bs) := by
  intro s rest hk hl hf hr
  subst hlen
  rw [encode_str_eq] at hf hr ⊢
  split at hf
  · rename_i hs
    rw [if_pos hs] at hr ⊢
    obtain ⟨b, hb, rfl⟩ : ∃ b, b < 0x80 ∧ bs = [b] := by
      unfold isSingleByte at hs
      split at hs
      · exact ⟨_, by simpa using hs, rfl⟩
      · cases hs
    have hb0 : b ≠ 0 := fun h => h0 (by rw [h])
    refine ⟨_, ?_, Read.peek_rearm s .byte 0 b⟩
    unfold decodeByteArray
    rw [exec_bind_ok (Kind_byte_ok hk hl hb hf hr)]
    simp [exec_map, exec_observing, exec_uint_peek_byte, hb0, Except.toOption]
  · rename_i hs
    rw [if_neg hs] at hr ⊢
    have hf' : s.Fits ((lengthPrefix 0x80 0xB7 bs.length).length + bs.length) := by simpa [header] using hf
    have hkind := Kind_string_ok hk hl hn hf' (by simpa [header] using hr)
    have hfull := readFull_ok (s := s.peek .string bs.length 0) hl (peek_fits (m := bs.length) (by simpa using hf))
      (by simp [hr, header])
    have htake : (s.peek .string bs.length 0).r.take bs.length = bs := by simp [hr, header]
    rw [htake] at hfull
    refine ⟨_, ?_, by simpa using Read.peek_consume s .string bs.length bs.length 0⟩
    unfold decodeByteArray
    rw [exec_bind_ok hkind]
    simp only [lt_self_iff_false, if_false, gt_iff_lt]
    rw [exec_bind_ok hfull]
    have hcanon : ¬ (bs.length = 1 ∧ bs.head?.all (· < 128) = true) := by
      rintro ⟨h1, h2⟩
      obtain ⟨b, rfl⟩ := List.length_eq_one_iff.mp h1
      exact hs (by simpa [isSingleByte] using h2)
    simp [hcanon]

/-- What a byte array decoder that returned implies, unless it read the byte zero into a `[1]byte`: the input held a
string of the array's length. -/
theorem decodeByteArray_inv {vlen : Nat} {s s' : Stream} {x : Val} (hk : s.kind = none) (hl : s.limited = true)
    (h : exec (decodeByteArray vlen) s = (.ok x, s')) (hx : x ≠ .bytes [0]) :
    ∃ bs, x = .bytes bs ∧ bs.length = vlen ∧ s.r = (Item.str bs).encode ++ s'.r ∧
      Read s s' (Item.str bs).encode.length := by
  unfold decodeByteArray at h
  obtain ⟨⟨k, n⟩, s₁, hkind, h⟩ := exec_bind_eq_ok h
  obtain ⟨bv, hr, rfl, hb, -⟩ := Kind_header_inv hk hl hkind
  cases k with
  | byte =>
    obtain ⟨rfl, hbv⟩ := hb rfl
    dsimp only at h
    by_cases hv0 : vlen = 0
    · simp [hv0] at h
    by_cases hv1 : vlen > 1
    · simp [hv0, hv1] at h
    obtain rfl : vlen = 1 := by omega
    by_cases hb0 : bv = 0
    · simp [exec_map, exec_observing, exec_uint_peek_byte, hb0] at h
      exact absurd h.1.symm hx
    simp [exec_map, exec_observing, exec_uint_peek_byte, hb0, Except.toOption] at h
    obtain ⟨rfl, rfl⟩ := h
    have hs : isSingleByte [bv] = true := by simpa [isSingleByte] using hbv
    refine ⟨[bv], by simp, rfl, ?_⟩
    rw [encode_str_eq, if_pos hs]
    exact ⟨by simpa [header] using hr, ⟨by simp, by simp, rfl, rfl, by simp⟩⟩
  | string =>
    dsimp only at h
    by_cases hv0 : vlen < n
    · simp [hv0] at h
    by_cases hv1 : vlen > n
    · simp [hv0, hv1] at h
    obtain rfl : vlen = n := by omega
    simp only [lt_self_iff_false, if_false] at h
    obtain ⟨bs', s₂, hfull, h⟩ := exec_bind_eq_ok h
    obtain ⟨-, hlen, rfl, rfl⟩ := readFull_inv (s := s.peek .string vlen bv) hl hfull
    split at h
    · simp at h
    · rename_i hcanon
      simp only [exec_pure, Prod.mk.injEq, Except.ok.injEq] at h
      obtain ⟨rfl, rfl⟩ := h
      have hlen' : ((s.peek .string vlen bv).r.take vlen).length = vlen := by simpa using hlen
      have hs : isSingleByte ((s.peek .string vlen bv).r.take vlen) = false := by
        unfold isSingleByte
        split
        · rename_i b hb
          rw [hb] at hlen' hcanon
          simp only [List.length_singleton] at hlen'
          subst hlen'
          simpa using hcanon
        · rfl
      have hh : header .string vlen bv = header .string vlen 0 := rfl
      refine ⟨_, rfl, hlen', ?_⟩
      simp only [encode_str_eq, hs, Bool.false_eq_true, if_false, List.length_append, hlen', ← hh]
      refine ⟨?_, Read.peek_consume s .string vlen vlen bv⟩
      rw [hr, List.append_assoc, consume_r, List.take_append_drop]
  | list => simp at h

end Etherzero.Rlp
