import SharedBuffer.Pool

/-!
The configuration of an allocator. It is read from named settings: a missing one keeps its
default, an unknown one is ignored, and one of the wrong type is refused.
-/

namespace SharedBuffer

def defaultMaxCapacity : Nat := 2147483647

structure Config where
  storageKind : StorageKind := .heap
  pooling : PoolingStrategy := .unpooled
  initialCapacity : Nat := 256
  maxCapacity : Nat := defaultMaxCapacity
  autoExpand : Bool := true
  deriving DecidableEq, Repr

inductive Setting where
  | text (s : String)
  | integer (n : Int)
  | boolean (b : Bool)
  | other
  deriving DecidableEq, Repr

namespace Setting

def size? : Setting → Option Nat
  | .integer n => if 0 ≤ n ∧ n ≤ Word.largest then some n.toNat else none
  | _ => none

def boolean? : Setting → Option Bool
  | .boolean b => some b
  | _ => none

def storageKind? : Setting → Option StorageKind
  | .text "heap" => some .heap
  | .text "direct" => some .direct
  | _ => none

def pooling? : Setting → Option PoolingStrategy
  | .text "unpooled" => some .unpooled
  | .text "pooled" => some .pooled
  | _ => none

end Setting

namespace Config

def set? (c : Config) (key : String) (value : Setting) : Option Config :=
  match key with
  | "storage_kind" => value.storageKind?.map fun k => { c with storageKind := k }
  | "pooling" => value.pooling?.map fun p => { c with pooling := p }
  | "initial_capacity" => value.size?.map fun n => { c with initialCapacity := n }
  | "max_capacity" => value.size?.map fun n => { c with maxCapacity := n }
  | "auto_expand" => value.boolean?.map fun b => { c with autoExpand := b }
  | _ => some c

def setAll? : Config → List (String × Setting) → Option Config
  | c, [] => some c
  | c, (key, value) :: rest => (c.set? key value).bind (setAll? · rest)

def ofSettings? (settings : List (String × Setting)) : Option Config := setAll? {} settings

def validate (c : Config) : Except Fault Unit :=
  if c.maxCapacity = 0 then .error .maxNotPositive
  else if c.maxCapacity < c.initialCapacity then
    .error (.configInitialAboveMax c.initialCapacity c.maxCapacity)
  else .ok ()

theorem validate_eq_ok_iff (c : Config) :
    c.validate = .ok () ↔ 0 < c.maxCapacity ∧ c.initialCapacity ≤ c.maxCapacity := by
  unfold validate
  split
  · simp only [reduceCtorEq, false_iff]
    omega
  · split
    · simp only [reduceCtorEq, false_iff]
      omega
    · simp only [true_iff]
      omega

theorem validate_default : validate {} = .ok () := rfl

def load (read : List Char → Except String Config) (text : List Char) : Except Fault Config :=
  match read text with
  | .error reason => .error (.configSyntax reason)
  | .ok c =>
    match c.validate with
    | .error f => .error f
    | .ok () => .ok c

section Load

variable {read : List Char → Except String Config} {text : List Char}

theorem load_eq_ok_iff {c : Config} :
    load read text = .ok c ↔
      read text = .ok c ∧ 0 < c.maxCapacity ∧ c.initialCapacity ≤ c.maxCapacity := by
  rw [← validate_eq_ok_iff, load]
  rcases read text with reason | d
  · simp
  · dsimp only
    split
    · next f hd =>
      simp only [reduceCtorEq, Except.ok.injEq, false_iff, not_and]
      rintro rfl
      simp [hd]
    · next hd =>
      simp only [Except.ok.injEq]
      exact ⟨fun h => ⟨h, h ▸ hd⟩, And.left⟩

theorem kind?_of_load_eq_error {f : Fault} (h : load read text = .error f) :
    f.kind? = some .invalidArgument := by
  simp only [load, validate] at h
  split at h
  · cases h
    rfl
  · split at h
    · next hf =>
      cases h
      split at hf
      · cases hf
        rfl
      · split at hf
        · cases hf
          rfl
        · cases hf
    · cases h

end Load

def describe (c : Config) : String :=
  "AllocatorConfig \x7b storage_kind: " ++ c.storageKind.name ++ ", pooling: " ++ c.pooling.name ++
    s!", initial_capacity: {c.initialCapacity}, max_capacity: {c.maxCapacity}, auto_expand: " ++
    (if c.autoExpand then "true" else "false") ++ " \x7d"

end Config

end SharedBuffer
