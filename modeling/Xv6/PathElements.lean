import Xv6.InodeReferences
import Xv6.Strings

/-!
# The elements of a path

`skipelem` walks over a string in memory with a pointer and copies each element to an array
of `DIRSIZ` bytes. What it finds are the nonempty pieces of the path between slashes, cut to
`DIRSIZ` bytes.
-/

namespace PathElements
open ByteMemory Strings InodeReferences
open DirectoryCalls (Name Path DIRSIZ slash skipelem)

/-- `while(p(*path)) path++;` over a string of at most `len` bytes. -/
def skipWhile (m : Memory) (p : Byte → Bool) : Nat → Nat → Nat
  | 0, path => path
  | len + 1, path => if p (m path) then skipWhile m p len (path + 1) else path

/-- The copy of the `length` bytes at `s` to the array `name`. -/
def copyName (m : Memory) (s length name : Nat) : Memory :=
  if DIRSIZ ≤ length then store m name (load m s DIRSIZ)
  else store (store m name (load m s length)) (name + length) [0]

/-- `skipelem` of `fs.c`, with the array `name` at an address of the same memory. -/
def skipelemAt (len : Nat) (m : Memory) (path name : Nat) : Option Nat × Memory :=
  let path := skipWhile m (· = slash) len path
  if m path = 0 then (none, m)
  else
    let s := path
    let path := skipWhile m (fun c => c ≠ slash ∧ c ≠ 0) len path
    let m := copyName m s (path - s) name
    (some (skipWhile m (· = slash) len path), m)

/-- The names that repeated calls leave in the array; none if `rounds` calls are too few. -/
def namesAt (len name : Nat) : Nat → Memory → Nat → Option (List Name)
  | 0, _, _ => none
  | rounds + 1, m, path =>
    match skipelemAt len m path name with
    | (none, _) => some []
    | (some path, m) =>
      (namesAt len name rounds m path).map (cut (fun k => m (name + k)) DIRSIZ :: ·)

/-- A string with its zero stands at an address. -/
structure Holds (m : Memory) (a : Nat) (path : Path) : Prop where
  bytes : ∀ i, i < path.length → m (a + i) = path.getD i 0
  ends : m (a + path.length) = 0
  nonzero : 0 ∉ path

variable {m m' : Memory} {a len : Nat} {path : Path}

theorem Holds.head {c : Byte} {cs : Path} (h : Holds m a (c :: cs)) : m a = c :=
  h.bytes 0 (Nat.succ_pos _)

theorem Holds.tail {c : Byte} {cs : Path} (h : Holds m a (c :: cs)) : Holds m (a + 1) cs where
  bytes i low := by
    have byte := h.bytes (i + 1) (Nat.succ_lt_succ low)
    rwa [List.getD_cons_succ, Nat.add_comm i, ← Nat.add_assoc] at byte
  ends := by
    have ends := h.ends
    rwa [List.length_cons, Nat.add_comm cs.length, ← Nat.add_assoc] at ends
  nonzero := fun member => h.nonzero (List.mem_cons_of_mem c member)

theorem Holds.skip (p : Byte → Bool) (len : Nat) (h : Holds m a path) (stops : p 0 = false)
    (enough : path.length ≤ len) :
    skipWhile m p len a = a + (path.takeWhile p).length ∧
      Holds m (skipWhile m p len a) (path.dropWhile p) := by
  induction path generalizing a len with
  | nil =>
    have here : skipWhile m p len a = a := by
      cases len with
      | zero => rfl
      | succ len =>
        have zero : m a = 0 := h.ends
        rw [skipWhile, zero, stops]
        rfl
    rw [here]
    exact ⟨rfl, h⟩
  | cons c cs ih =>
    cases len with
    | zero => cases enough
    | succ len =>
      unfold skipWhile
      rw [h.head]
      cases pass : p c with
      | true =>
        obtain ⟨moved, rest⟩ := ih len h.tail (Nat.le_of_succ_le_succ enough)
        rw [if_pos rfl, List.takeWhile_cons_of_pos pass, List.dropWhile_cons_of_pos pass]
        refine ⟨?_, rest⟩
        rw [moved, List.length_cons]
        omega
      | false =>
        rw [if_neg (by simp), List.takeWhile_cons_of_neg (by simp [pass]),
          List.dropWhile_cons_of_neg (by simp [pass])]
        exact ⟨rfl, h⟩

theorem Holds.congr (h : Holds m a path)
    (same : ∀ k, a ≤ k → k ≤ a + path.length → m' k = m k) : Holds m' a path where
  bytes i low := by rw [same _ (by omega) (by omega), h.bytes i low]
  ends := by rw [same _ (by omega) le_rfl, h.ends]
  nonzero := h.nonzero

/-- The name that the array holds once the bytes of an element are in it. -/
theorem cut_take {f : Nat → Byte} {l : List Byte} {n : Nat} (nonzero : 0 ∉ l)
    (bytes : ∀ i, i < l.length → i < n → f i = l.getD i 0)
    (ends : l.length < n → f l.length = 0) : cut f n = l.take n := by
  induction n generalizing f l with
  | zero => rfl
  | succ n ih =>
    cases l with
    | nil => exact cut_ends (ends (Nat.succ_pos n)) n
    | cons c cs =>
      have first : f 0 = c := bytes 0 (Nat.succ_pos _) (Nat.succ_pos n)
      have some_ : f 0 ≠ 0 := fun zero => nonzero (by simp [← zero, first])
      have rest : cut (fun k => f (k + 1)) n = cs.take n := by
        refine ih (fun member => nonzero (List.mem_cons_of_mem c member)) ?_ ?_
        · exact fun i low below => bytes (i + 1) (Nat.succ_lt_succ low) (Nat.succ_lt_succ below)
        · exact fun short => ends (Nat.succ_lt_succ short)
      rw [cut_cons some_, rest, List.take_succ_cons, first]

theorem copyName_outside {s length name k : Nat} (apart : k < name ∨ name + DIRSIZ ≤ k) :
    copyName m s length name k = m k := by
  unfold copyName
  split
  · exact store_outside (by rwa [load_length])
  · rw [store_outside (by simp only [List.length_singleton]; omega),
      store_outside (by rw [load_length]; omega)]

theorem copyName_cut {s name : Nat} {word : List Byte} (nonzero : 0 ∉ word)
    (bytes : ∀ i, i < word.length → m (s + i) = word.getD i 0) :
    cut (fun k => copyName m s word.length name (name + k)) DIRSIZ = word.take DIRSIZ := by
  refine cut_take nonzero (fun i low below => ?_) fun short => ?_
  · unfold copyName
    split
    · rw [store_inside (by simpa using below)]
      simp only [load, List.getElem_map, List.getElem_range]
      exact bytes i low
    · rw [store_outside (.inl (by omega)), store_inside (by simpa using low)]
      simp only [load, List.getElem_map, List.getElem_range]
      exact bytes i low
  · unfold copyName
    rw [if_neg (Nat.not_le_of_lt short)]
    exact store_inside (k := 0) (by simp)

/-- A string has no zero that could end an element. -/
theorem word_eq {l : List Byte} (nonzero : 0 ∉ l) :
    l.takeWhile (fun c => decide (c ≠ slash ∧ c ≠ 0)) = l.takeWhile (fun c => decide (c ≠ slash)) ∧
      l.dropWhile (fun c => decide (c ≠ slash ∧ c ≠ 0)) =
        l.dropWhile (fun c => decide (c ≠ slash)) := by
  induction l with
  | nil => exact ⟨rfl, rfl⟩
  | cons c cs ih =>
    obtain ⟨take, drop⟩ := ih fun member => nonzero (List.mem_cons_of_mem c member)
    have some_ : c ≠ 0 := fun zero => nonzero (by simp [zero])
    simp only [List.takeWhile_cons, List.dropWhile_cons, some_, ne_eq, not_false_eq_true, and_true,
      take, drop]

/-- `skipelem` in memory is `skipelem` on the bytes of the path. -/
theorem skipelemAt_eq {name : Nat} (h : Holds m a path) (enough : path.length ≤ len)
    (apart : name + DIRSIZ ≤ a ∨ a + path.length < name) :
    match skipelem path with
    | none => (skipelemAt len m a name).1 = none
    | some (elem, rest) => ∃ b, (skipelemAt len m a name).1 = some b ∧
        b + rest.length = a + path.length ∧ a ≤ b ∧
        Holds (skipelemAt len m a name).2 b rest ∧
        cut (fun k => (skipelemAt len m a name).2 (name + k)) DIRSIZ = elem := by
  obtain ⟨moved, begins⟩ := h.skip (· = slash) len (by decide) enough
  have total := congrArg List.length
    (List.takeWhile_append_dropWhile (p := (· = slash)) (l := path))
  rw [List.length_append] at total
  simp only [skipelem, skipelemAt]
  generalize skipWhile m (· = slash) len a = b at *
  generalize path.dropWhile (· = slash) = q at *
  rcases q with _ | ⟨c, cs⟩
  · have stop : m b = 0 := begins.ends
    simp only [stop, if_true]
  · have some_ : m b ≠ 0 := by
      rw [begins.head]
      exact fun zero => begins.nonzero (by simp [zero])
    have split := List.takeWhile_append_dropWhile (p := fun c => decide (c ≠ slash)) (l := c :: cs)
    obtain ⟨word, after⟩ := begins.skip (fun c => decide (c ≠ slash ∧ c ≠ 0)) len
      (by decide) (by omega)
    rw [(word_eq begins.nonzero).1] at word
    rw [(word_eq begins.nonzero).2] at after
    rw [if_neg (List.cons_ne_nil c cs), if_neg some_]
    rw [word] at after ⊢
    generalize (c :: cs).takeWhile (fun c => decide (c ≠ slash)) = w at *
    generalize (c :: cs).dropWhile (fun c => decide (c ≠ slash)) = rest at *
    rw [Nat.add_sub_cancel_left]
    have lengths := congrArg List.length split
    rw [List.length_append] at lengths
    have kept : Holds (copyName m b w.length name) (b + w.length) rest :=
      after.congr fun k low high => copyName_outside (by omega)
    obtain ⟨moved', last⟩ := kept.skip (· = slash) len (by decide) (by omega)
    have parts := congrArg List.length
      (List.takeWhile_append_dropWhile (p := (· = slash)) (l := rest))
    rw [List.length_append] at parts
    refine ⟨_, rfl, ?_, ?_, last, ?_⟩
    · omega
    · omega
    · refine copyName_cut (fun member => ?_) fun i low => ?_
      · exact begins.nonzero (split ▸ List.mem_append_left rest member)
      · rw [begins.bytes i (by omega), ← split, List.getD_append _ _ _ _ low]

def components (path : Path) : List Name :=
  ((path.splitOn slash).filter (· ≠ [])).map (·.take DIRSIZ)

/-- What repeated calls of `skipelem` yield. -/
def elements (path : Path) : List Name :=
  match _found : skipelem path with
  | none => []
  | some (name, rest) => name :: elements rest
termination_by path.length
decreasing_by exact skipelem_shorter _found

theorem components_slash (path : Path) : components (slash :: path) = components path := by
  rw [components, components, List.splitOn_eq_splitOnP, List.splitOn_eq_splitOnP,
    List.splitOnP_cons_eq_if_modifyHead, if_pos (by decide)]
  rfl

theorem components_skip (path : Path) :
    components (path.dropWhile (· = slash)) = components path := by
  induction path with
  | nil => rfl
  | cons c cs ih =>
    by_cases isSlash : c = slash
    · rw [List.dropWhile_cons_of_pos (by simpa using isSlash), ih, isSlash, components_slash]
    · rw [List.dropWhile_cons_of_neg (by simpa using isSlash)]

/-- A word and what comes after it. -/
theorem components_word {word rest : Path} (some_ : word ≠ []) (plain : slash ∉ word)
    (ends : ∀ c cs, rest = c :: cs → c = slash) :
    components (word ++ rest) = word.take DIRSIZ :: components rest := by
  have none_ : ∀ x ∈ word, (x == slash) = false := by
    intro x member
    have differ : x ≠ slash := fun same => plain (same ▸ member)
    simpa using differ
  cases rest with
  | nil =>
    have single : components (word ++ []) = [word.take DIRSIZ] := by
      rw [List.append_nil, components, List.splitOn_eq_splitOnP, List.splitOnP_eq_singleton none_]
      simp [some_]
    exact single
  | cons c cs =>
    obtain rfl := ends c cs rfl
    rw [components_slash, components, components, List.splitOn_eq_splitOnP,
      List.splitOnP_append_cons_of_forall_mem none_ slash (by decide), List.filter_cons_of_pos
      (by simpa using some_), List.map_cons, List.splitOn_eq_splitOnP]

theorem components_cons {c : Byte} (plain : c ≠ slash) (cs : Path) :
    components (c :: cs) = ((c :: cs).takeWhile (· ≠ slash)).take DIRSIZ ::
      components ((c :: cs).dropWhile (· ≠ slash)) := by
  have next := List.head?_dropWhile_not (fun x => decide (x ≠ slash)) (c :: cs)
  have split := List.takeWhile_append_dropWhile (p := fun x => decide (x ≠ slash)) (l := c :: cs)
  have word : (c :: cs).takeWhile (fun x => decide (x ≠ slash)) ≠ [] := by
    rw [List.takeWhile_cons_of_pos (by simpa using plain)]
    exact List.cons_ne_nil _ _
  have inside : slash ∉ (c :: cs).takeWhile (fun x => decide (x ≠ slash)) := by
    intro member
    have holds := List.all_eq_true.mp List.all_takeWhile slash member
    simp at holds
  have ends : ∀ d ds, (c :: cs).dropWhile (fun x => decide (x ≠ slash)) = d :: ds → d = slash := by
    intro d ds here
    rw [here] at next
    simpa using next
  rw [← components_word word inside ends, split]

/-- `skipelem` takes the first component off, and what it leaves begins with the next one. -/
theorem skipelem_components (path : Path) :
    match skipelem path with
    | none => components path = []
    | some (name, rest) => components path = name :: components rest ∧
        (rest = [] ↔ components rest = []) := by
  rw [← components_skip path]
  simp only [skipelem]
  have first := List.head?_dropWhile_not (· = slash) path
  generalize path.dropWhile (· = slash) = q at *
  rcases q with _ | ⟨c, cs⟩
  · rfl
  · have plain : c ≠ slash := by simpa using first
    rw [if_neg (List.cons_ne_nil c cs)]
    refine ⟨?_, ?_⟩
    · rw [components_cons plain, components_skip]
    · have second := List.head?_dropWhile_not (· = slash) ((c :: cs).dropWhile (· ≠ slash))
      generalize ((c :: cs).dropWhile (· ≠ slash)).dropWhile (· = slash) = rest at *
      rcases rest with _ | ⟨d, ds⟩
      · exact iff_of_true rfl rfl
      · have plain' : d ≠ slash := by simpa using second
        rw [components_cons plain']
        exact iff_of_false (List.cons_ne_nil d ds) (List.cons_ne_nil _ _)

theorem skipelem_none (none_ : skipelem path = none) : components path = [] := by
  have all := skipelem_components path
  rwa [none_] at all

theorem skipelem_some {name : Name} {rest : Path} (some_ : skipelem path = some (name, rest)) :
    components path = name :: components rest ∧ (rest = [] ↔ components rest = []) := by
  have all := skipelem_components path
  rwa [some_] at all

theorem elements_eq (path : Path) : elements path = components path := by
  induction path using elements.induct with
  | case1 path none_ =>
    rw [skipelem_none none_]
    unfold elements
    split
    next => rfl
    next some_ =>
      rw [none_] at some_
      cases some_
  | case2 path name rest some_ ih =>
    rw [(skipelem_some some_).1, ← ih]
    unfold elements
    split
    next none_ =>
      rw [some_] at none_
      cases none_
    next some_' =>
      rw [some_] at some_'
      cases some_'
      rw [elements]

/-- In memory too, repeated calls leave the components in the array, one after the other. -/
theorem namesAt_eq {name rounds : Nat} (h : Holds m a path) (enough : path.length ≤ len)
    (apart : name + DIRSIZ ≤ a ∨ a + path.length < name) (long : path.length < rounds) :
    namesAt len name rounds m a = some (components path) := by
  induction rounds generalizing m a path with
  | zero => omega
  | succ rounds ih =>
    have one := skipelemAt_eq h enough apart
    unfold namesAt
    rcases elem : skipelem path with _ | ⟨first, rest⟩
    · rw [elem] at one
      rw [skipelem_none elem]
      generalize skipelemAt len m a name = r at *
      obtain ⟨b, m'⟩ := r
      obtain rfl : b = none := one
      rfl
    · rw [elem] at one
      have shorter := skipelem_shorter elem
      rw [(skipelem_some elem).1]
      generalize skipelemAt len m a name = r at *
      obtain ⟨b, m'⟩ := r
      obtain ⟨b, rfl, total, low, holds, cut_⟩ := one
      have next := ih holds (by omega) (by omega) (by omega)
      simp only at cut_ ⊢
      rw [next, Option.map_some, cut_]

end PathElements
