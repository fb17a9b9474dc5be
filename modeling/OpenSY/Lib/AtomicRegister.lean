import Mathlib.Data.List.Chain
import OpenSY.Lib.Transition

/-!
# Atomic registers and the accesses to them

A register that several callers load and compare-exchange, one access at a time.  It keeps its
accesses in their order, each with the value that is in the register right after it.

* `exists_exchange` — the value changes by exchanges only;
* `isChain_exchanges` — if every exchange is admitted for the value it replaces, then the exchanged
  values, in the order of the exchanges, are a chain;
* `LastRead.overtaken` — a caller that no longer finds the value of its last read has been overtaken
  by another caller's exchange.
-/

namespace OpenSY.AtomicRegister

open OpenSY.Transition

variable {C V : Type}

/-- A load, a compare-exchange that found the expected value, and one that did not. -/
inductive Kind where
  | loaded | exchanged | kept
  deriving DecidableEq

/-- Who accessed the register, and what it holds since. -/
structure Access (C V : Type) where
  kind : Kind
  caller : C
  value : V

/-- Only an exchange makes the value another one. -/
def Access.Fits (value : V) (a : Access C V) : Prop := a.kind ≠ .exchanged → a.value = value

/-- The value in the register after some accesses. -/
def valueAfter (value : V) (history : List (Access C V)) : V :=
  history.foldl (fun _ a => a.value) value

/-- Every access fits the value that it finds. -/
def Coherent (value : V) (history : List (Access C V)) : Prop :=
  Along (fun _ a => a.value) Access.Fits value history

/-- Every exchange is admitted by `R` for the value that it replaces. -/
def Admits (R : V → V → Prop) (value : V) (history : List (Access C V)) : Prop :=
  Along (fun _ a => a.value) (fun old a => a.kind = .exchanged → R old a.value) value history

/-! ### The register -/

structure Register (C V : Type) (init : V) where
  value : V
  history : List (Access C V)
  coherent : Coherent init history
  valueAfter_eq : valueAfter init history = value

namespace Register

variable {init : V}

def new (init : V) : Register C V init := ⟨init, [], trivial, rfl⟩

/-- A condition on the accesses holds of one more if that one meets it for the value in the
register. -/
theorem along_concat (r : Register C V init) {allowed : V → Access C V → Prop}
    (h : Along (fun _ a => a.value) allowed init r.history) {a : Access C V}
    (ha : allowed r.value a) :
    Along (fun _ a => a.value) allowed init (r.history ++ [a]) := by
  refine Along.append h ⟨?_, trivial⟩
  have hvalue := r.valueAfter_eq
  unfold valueAfter at hvalue
  rw [hvalue]
  exact ha

theorem valueAfter_concat (value : V) (history : List (Access C V)) (a : Access C V) :
    valueAfter value (history ++ [a]) = a.value := by
  rw [valueAfter, List.foldl_concat]

def record (r : Register C V init) (a : Access C V) (h : a.Fits r.value) : Register C V init where
  value := a.value
  history := r.history ++ [a]
  coherent := r.along_concat r.coherent h
  valueAfter_eq := valueAfter_concat init r.history a

theorem fits_loaded (r : Register C V init) (c : C) : (Access.mk .loaded c r.value).Fits r.value :=
  fun _ => rfl

theorem fits_kept (r : Register C V init) (c : C) : (Access.mk .kept c r.value).Fits r.value :=
  fun _ => rfl

theorem fits_exchanged (r : Register C V init) (c : C) (desired : V) :
    (Access.mk .exchanged c desired).Fits r.value := fun h => absurd rfl h

def load (r : Register C V init) (c : C) : V × Register C V init :=
  (r.value, r.record ⟨.loaded, c, r.value⟩ (r.fits_loaded c))

/-- Whether the value was exchanged, and what the caller then takes for the expected value. -/
def compareExchangeStrong [DecidableEq V] (r : Register C V init) (c : C) (expected desired : V) :
    Bool × V × Register C V init :=
  if r.value = expected then
    (true, expected, r.record ⟨.exchanged, c, desired⟩ (r.fits_exchanged c desired))
  else (false, r.value, r.record ⟨.kept, c, r.value⟩ (r.fits_kept c))

theorem compareExchangeStrong_of_eq [DecidableEq V] (r : Register C V init) (c : C) {expected : V}
    (desired : V) (h : r.value = expected) :
    r.compareExchangeStrong c expected desired =
      (true, expected, r.record ⟨.exchanged, c, desired⟩ (r.fits_exchanged c desired)) :=
  if_pos h

theorem compareExchangeStrong_of_ne [DecidableEq V] (r : Register C V init) (c : C) {expected : V}
    (desired : V) (h : r.value ≠ expected) :
    r.compareExchangeStrong c expected desired =
      (false, r.value, r.record ⟨.kept, c, r.value⟩ (r.fits_kept c)) :=
  if_neg h

end Register

/-! ### Exchanges -/

/-- The exchanges among some accesses, with the values that they put into the register. -/
def exchanges (history : List (Access C V)) : List (C × V) :=
  history.filterMap fun a => if a.kind = .exchanged then some (a.caller, a.value) else none

theorem exchanges_concat_read (history : List (Access C V)) {a : Access C V}
    (h : a.kind ≠ .exchanged) :
    exchanges (history ++ [a]) = exchanges history := by
  simp [exchanges, h]

theorem exchanges_concat_exchange (history : List (Access C V)) {a : Access C V}
    (h : a.kind = .exchanged) :
    exchanges (history ++ [a]) = exchanges history ++ [(a.caller, a.value)] := by
  simp [exchanges, h]

theorem mem_exchanges_concat {history : List (Access C V)} {p : C × V} (h : p ∈ exchanges history)
    (a : Access C V) : p ∈ exchanges (history ++ [a]) := by
  by_cases ha : a.kind = .exchanged
  · rw [exchanges_concat_exchange history ha]
    exact List.mem_append_left _ h
  · rw [exchanges_concat_read history ha]
    exact h

/-- **Exchanges form a chain** from the first value on. -/
theorem isChain_exchanges {R : V → V → Prop} {value : V} {history : List (Access C V)}
    (hcoherent : Coherent value history) (hadmits : Admits R value history) :
    (value :: (exchanges history).map Prod.snd).IsChain R := by
  induction history generalizing value with
  | nil => exact .singleton value
  | cons a history ih =>
    have hrest := ih hcoherent.2 hadmits.2
    by_cases ha : a.kind = .exchanged
    · have hcons : exchanges (a :: history) = (a.caller, a.value) :: exchanges history := by
        simp [exchanges, ha]
      rw [hcons]
      exact .cons_cons (hadmits.1 ha) hrest
    · have hcons : exchanges (a :: history) = exchanges history := by simp [exchanges, ha]
      rw [hcons, ← hcoherent.1 ha]
      exact hrest

/-- Without an exchange the value stays. -/
theorem exists_exchange {value : V} {history : List (Access C V)}
    (hcoherent : Coherent value history) (hchanged : valueAfter value history ≠ value) :
    ∃ a ∈ history, a.kind = .exchanged := by
  induction history generalizing value with
  | nil => exact absurd rfl hchanged
  | cons a history ih =>
    by_cases ha : a.kind = .exchanged
    · exact ⟨a, List.mem_cons_self, ha⟩
    · have hvalue : a.value = value := hcoherent.1 ha
      have hrest : valueAfter a.value history ≠ a.value := by
        intro h
        exact hchanged (h.trans hvalue)
      obtain ⟨b, hb, hkind⟩ := ih hcoherent.2 hrest
      exact ⟨b, List.mem_cons_of_mem _ hb, hkind⟩

/-! ### What a caller knows -/

/-- The last access of `c` has read `value`. -/
def LastRead (c : C) (value : V) (history : List (Access C V)) : Prop :=
  ∃ front a rest, history = front ++ a :: rest ∧ a.caller = c ∧ a.kind ≠ .exchanged ∧
    a.value = value ∧
    ∀ b ∈ rest, b.caller ≠ c

/-- Behind the last access of `c`, which was a read, there is an exchange.  It is another caller's.
-/
def Overtaken (c : C) (history : List (Access C V)) : Prop :=
  ∃ front a rest, history = front ++ a :: rest ∧ a.caller = c ∧ a.kind ≠ .exchanged ∧
    (∀ b ∈ rest, b.caller ≠ c) ∧ ∃ b ∈ rest, b.kind = .exchanged

theorem lastRead_concat (history : List (Access C V)) {a : Access C V} (h : a.kind ≠ .exchanged) :
    LastRead a.caller a.value (history ++ [a]) :=
  ⟨history, a, [], rfl, rfl, h, rfl, fun _ hb => absurd hb List.not_mem_nil⟩

namespace LastRead

variable {c : C} {value : V} {history : List (Access C V)}

theorem concat (h : LastRead c value history) {b : Access C V} (hb : b.caller ≠ c) :
    LastRead c value (history ++ [b]) := by
  obtain ⟨front, a, rest, rfl, hcaller, hkind, hvalue, hrest⟩ := h
  refine ⟨front, a, rest ++ [b], by simp, hcaller, hkind, hvalue, fun x hx => ?_⟩
  rcases List.mem_append.mp hx with hx | hx
  · exact hrest x hx
  · rw [List.mem_singleton.mp hx]
    exact hb

/-- **A value that is no longer there was exchanged by another caller.** -/
theorem overtaken {init : V} (h : LastRead c value history) (hcoherent : Coherent init history)
    (hchanged : valueAfter init history ≠ value) : Overtaken c history := by
  obtain ⟨front, a, rest, rfl, hcaller, hkind, rfl, hrest⟩ := h
  have hafter : Coherent a.value rest := (Along.of_append hcoherent).2.2
  have hvalue : valueAfter init (front ++ a :: rest) = valueAfter a.value rest := by
    rw [valueAfter, List.foldl_append, List.foldl_cons, valueAfter]
  rw [hvalue] at hchanged
  exact ⟨front, a, rest, rfl, hcaller, hkind, hrest, exists_exchange hafter hchanged⟩

end LastRead

end OpenSY.AtomicRegister
