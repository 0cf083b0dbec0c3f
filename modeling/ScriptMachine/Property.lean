import ScriptMachine.Value

/-!
# Properties

Objects hold data properties only.  A property table keeps its entries in the order in which their keys first
came in; redefining a key leaves it in its place.
-/

namespace ScriptMachine

inductive PropertyKey where
  | text (t : Text)
  | symbol (s : Symbol)
  deriving DecidableEq

namespace PropertyKey

def ofString (s : String) : PropertyKey := .text (Text.ofString s)

def ofNat (n : Nat) : PropertyKey := .text (Text.ofNat n)

/-- The key under which arrays and texts have their size. -/
def length : PropertyKey := ofString "length"

def isSymbol : PropertyKey → Bool
  | .symbol _ => true
  | .text _ => false

def index? : PropertyKey → Option Nat
  | .text t => t.arrayIndex?
  | .symbol _ => none

def toValue : PropertyKey → Value
  | .text t => .text t
  | .symbol s => .symbol s

def display : PropertyKey → String
  | .text t => t.display
  | .symbol s => s.display

end PropertyKey

structure Property where
  value : Value
  writable : Bool
  enumerable : Bool
  configurable : Bool
  deriving Inhabited

namespace Property

def plain (v : Value) : Property := ⟨v, true, true, true⟩

/-- A property that loops over keys pass by. -/
def hidden (v : Value) : Property := ⟨v, true, false, true⟩

/-- A hidden property that assignment does not change. -/
def hiddenReadOnly (v : Value) : Property := ⟨v, false, false, true⟩

/-- A hidden property that stays as it is. -/
def permanent (v : Value) : Property := ⟨v, false, false, false⟩

end Property

structure PropertyTable where
  entries : List (PropertyKey × Property)

namespace PropertyTable

def empty : PropertyTable := ⟨[]⟩

instance : Inhabited PropertyTable := ⟨empty⟩

def size (t : PropertyTable) : Nat := t.entries.length

def keys (t : PropertyTable) : List PropertyKey := t.entries.map (·.1)

def find? (t : PropertyTable) (key : PropertyKey) : Option Property := (t.entries.find? (fun e => e.1 = key)).map (·.2)

/-- Entries with one key set: in its place, or at the end when it is new. -/
def insertEntry (key : PropertyKey) (p : Property) :
    List (PropertyKey × Property) → List (PropertyKey × Property)
  | [] => [(key, p)]
  | e :: rest => if e.1 = key then (key, p) :: rest else e :: insertEntry key p rest

def insert (t : PropertyTable) (key : PropertyKey) (p : Property) : PropertyTable := ⟨insertEntry key p t.entries⟩

def erase (t : PropertyTable) (key : PropertyKey) : PropertyTable := ⟨t.entries.filter (fun e => e.1 ≠ key)⟩

/-! ### Tables after a change -/

theorem find?_insertEntry (key k : PropertyKey) (p : Property) (entries : List (PropertyKey × Property)) :
    ((insertEntry key p entries).find? (fun e => e.1 = k)).map (·.2) =
      if k = key then some p else (entries.find? (fun e => e.1 = k)).map (·.2) := by
  induction entries with
  | nil => by_cases h : k = key <;> simp [insertEntry, h, eq_comm]
  | cons e rest ih =>
    unfold insertEntry
    split
    case isTrue he =>
      by_cases h : k = key
      · simp [h]
      · simp [h, Ne.symm h, he]
    case isFalse he =>
      by_cases h : e.1 = k
      · have hk : k ≠ key := fun hk => he (h.trans hk)
        simp [h, hk]
      · simpa [h] using ih

@[simp] theorem find?_insert (t : PropertyTable) (key k : PropertyKey) (p : Property) :
    (t.insert key p).find? k = if k = key then some p else t.find? k :=
  find?_insertEntry key k p t.entries

@[simp] theorem find?_erase (t : PropertyTable) (key k : PropertyKey) :
    (t.erase key).find? k = if k = key then none else t.find? k := by
  unfold find? erase
  rw [List.find?_filter]
  by_cases h : k = key
  · subst h
    simp
  · have hsame : ∀ e : PropertyKey × Property,
        decide (decide (e.1 ≠ key) = true ∧ decide (e.1 = k) = true) = decide (e.1 = k) := by
      intro e
      by_cases he : e.1 = k
      · simp [he, h]
      · simp [he]
    rw [if_neg h, funext hsame]

theorem isSome_find? (t : PropertyTable) (key : PropertyKey) : (t.find? key).isSome = true ↔ key ∈ t.keys := by
  simp [find?, keys]

theorem keys_insertEntry (key : PropertyKey) (p : Property) (entries : List (PropertyKey × Property)) :
    (insertEntry key p entries).map (·.1) =
      if key ∈ entries.map (·.1) then entries.map (·.1) else entries.map (·.1) ++ [key] := by
  induction entries with
  | nil => rfl
  | cons e rest ih =>
    unfold insertEntry
    split
    case isTrue he => simp [he]
    case isFalse he =>
      simp only [List.map_cons, ih, List.mem_cons, Ne.symm he, false_or]
      split <;> simp

/-- A key that is new comes last. -/
theorem keys_insert (t : PropertyTable) (key : PropertyKey) (p : Property) :
    (t.insert key p).keys = if key ∈ t.keys then t.keys else t.keys ++ [key] :=
  keys_insertEntry key p t.entries

theorem keys_erase (t : PropertyTable) (key : PropertyKey) : (t.erase key).keys = t.keys.filter (· ≠ key) := by
  simp only [keys, erase, List.filter_map]
  rfl

theorem nodup_keys_insert {t : PropertyTable} (h : t.keys.Nodup) (key : PropertyKey) (p : Property) :
    (t.insert key p).keys.Nodup := by
  rw [keys_insert]
  split
  case isTrue => exact h
  case isFalse hnew =>
    rw [List.nodup_append]
    refine ⟨h, by simp, ?_⟩
    intro a ha b hb heq
    rw [List.mem_singleton] at hb
    exact hnew (hb ▸ heq ▸ ha)

end PropertyTable

end ScriptMachine
