import Chloride.Objects.StringBytes

/-!
# String objects

How the string objects of `src/runtime/objects/string/string.c` hold their bytes.
`new_string_object` makes no object for a string of one byte: it answers the one that `small_chars` has
for that byte. `upper`, `lower` and `title` make their result with it and then change the bytes of
that result in place. So the store of the model keeps the character data apart from the objects that
point to it.

The claim of the module is that strings are values: no operation changes what an object that exists
holds, or what an iterator goes through, and the strings it makes hold what they should. The theorem
says that this is so in a run exactly as long as no `upper`, `lower` or `title` is given a string of
one byte that it changes. The hash that an object keeps is left out, and so are the methods that make
no string, like the comparisons: they read and do not write. An operation that raises an error, or that
the source leaves undefined, makes no string.
-/

namespace Chloride

/-- An `ArgonObject *` of a string: `empty_str`, an element of `small_chars` or an object of its own. -/
inductive StringPtr where
  | emptyStr
  | smallChar (c : UInt8)
  | object (i : ℕ)
  deriving DecidableEq

/-- Where character data lies: that of `empty_str`, the `chr` of an element of `small_chars`, or
allocated. -/
inductive DataPtr where
  | emptyStr
  | smallChar (c : UInt8)
  | allocated (i : ℕ)
  deriving DecidableEq

/-- `struct string_struct`. -/
structure StringStruct where
  data : DataPtr
  length : ℕ
  deriving DecidableEq

/-- `struct as_string_iterator`. -/
structure StringIterator where
  data : DataPtr
  length : ℕ
  current : ℕ
  deriving DecidableEq

/-- The string objects and string iterators of a process. -/
structure StringStore where
  smallChars : UInt8 → UInt8
  data : List (List UInt8)
  objects : List StringStruct
  iterators : List StringIterator

/-- The operations that make strings or go through them. `literal` is every use of `new_string_object`
or `string_to_argon` on bytes that come from elsewhere: a constant of the program, a file, the digits of
a number. `fieldName` is `new_string_object_without_memcpy` on such bytes, and `construct` is
`string(x)` for the string that the `__string__` of `x` gives. -/
inductive StringOp where
  | literal (data : List UInt8)
  | fieldName (data : List UInt8)
  | construct (a : StringPtr)
  | add (a b : StringPtr)
  | upper (a : StringPtr)
  | lower (a : StringPtr)
  | title (a : StringPtr)
  | replace (a old new : StringPtr)
  | repeat (a : StringPtr) (count : Int64)
  | getitem (a : StringPtr) (index : Int64)
  | getslice (a : StringPtr) (start stop step : Option Int64)
  | split (a delim : StringPtr) (max : Option Int64)
  | strip (a chars : StringPtr)
  | chr (codepoint : Int64)
  | fromByte (n : Int64)
  | repr (a : StringPtr)
  | renderTemplate (items : List StringPtr)
  | iter (a : StringPtr)
  | next (it : ℕ)
  deriving DecidableEq

namespace StringStore

/-- `init_small_chars`. -/
def init : StringStore where
  smallChars c := c
  data := []
  objects := []
  iterators := []

/-- The bytes at a data pointer. -/
def bytes (s : StringStore) : DataPtr → Option (List UInt8)
  | .emptyStr => some []
  | .smallChar c => some [s.smallChars c]
  | .allocated i => s.data[i]?

/-- The `as_str` of an object, which `argon_to_string` gives out. -/
def argonToString (s : StringStore) : StringPtr → Option StringStruct
  | .emptyStr => some ⟨.emptyStr, 0⟩
  | .smallChar c => some ⟨.smallChar c, 1⟩
  | .object i => s.objects[i]?

/-- The content of a string object. -/
def content (s : StringStore) (a : StringPtr) : Option (List UInt8) := do
  let str ← s.argonToString a
  let data ← s.bytes str.data
  return data.take str.length

/-- The string that an iterator goes through. -/
def iterated (s : StringStore) (it : ℕ) : Option (List UInt8) := do
  let iterator ← s.iterators[it]?
  let data ← s.bytes iterator.data
  return data.take iterator.length

/-! ## Making objects -/

/-- `new_string_object_without_memcpy`. -/
def newStringObjectWithoutMemcpy (s : StringStore) (str : StringStruct) : StringPtr × StringStore :=
  (.object s.objects.length, { s with objects := s.objects ++ [str] })

/-- `ar_alloc_atomic` and the `memcpy` into it. -/
def alloc (s : StringStore) (data : List UInt8) : DataPtr × StringStore :=
  (.allocated s.data.length, { s with data := s.data ++ [data] })

/-- `new_string_object`. -/
def newStringObject (s : StringStore) : List UInt8 → StringPtr × StringStore
  | [] => (.emptyStr, s)
  | [c] => (.smallChar c, s)
  | data =>
    let (dataCopy, s) := s.alloc data
    s.newStringObjectWithoutMemcpy ⟨dataCopy, data.length⟩

/-- One `new_string_object` after the other. -/
def newStringObjects (s : StringStore) : List (List UInt8) → List StringPtr × StringStore
  | [] => ([], s)
  | data :: rest =>
    let (a, s) := s.newStringObject data
    let (as, s) := s.newStringObjects rest
    (a :: as, s)

/-- A loop that changes the first bytes at a data pointer, as many as `length`, in place. -/
def write (s : StringStore) (length : ℕ) (f : List UInt8 → List UInt8) : DataPtr → StringStore
  | .emptyStr => s
  | .smallChar c =>
    { s with
      smallChars := Function.update s.smallChars c
        ((f ([s.smallChars c].take length)).headD (s.smallChars c)) }
  | .allocated i => { s with data := s.data.modify i fun data => f (data.take length) ++ data.drop length }

/-- `upper`, `lower` and `title`: a new string object of the same bytes, which are then changed. -/
def changeCase (s : StringStore) (f : List UInt8 → List UInt8) (a : StringPtr) :
    Option (List StringPtr × StringStore) := do
  let self ← s.content a
  let (newStrObj, s) := s.newStringObject self
  let newStr ← s.argonToString newStrObj
  return ([newStrObj], s.write newStr.length f newStr.data)

end StringStore

/-! ## The operations -/

/-- The strings that an operation makes out of the contents of its arguments. -/
def StringOp.value (ctype : CType) (content : StringPtr → Option (List UInt8))
    (position : ℕ → Option (List UInt8 × ℕ)) : StringOp → Option (List (List UInt8))
  | .literal data => some [data]
  | .fieldName data => some [data]
  | .construct a => do return [← content a]
  | .add a b => do return [(← content a) ++ (← content b)]
  | .upper a => do return [upperBytes ctype (← content a)]
  | .lower a => do return [lowerBytes ctype (← content a)]
  | .title a => do return [titleBytes ctype true (← content a)]
  | .replace a old new => do
    let self ← content a
    let old ← content old
    let new ← content new
    return [if old = [] then self else replaceBytes old new 0 self]
  | .repeat a count => do return [← (repeatBytes (← content a) count).toOption]
  | .getitem a index => do return [← (getitemBytes (← content a) index).toOption]
  | .getslice a start stop step => do
    let slice ← stringGetSlice (← content a) start stop step
    return [← slice.toOption]
  | .split a delim max => do (Chloride.split (← content a) (← content delim) max).toOption
  | .strip a chars => do return [stripBytes (← content a) (← content chars)]
  | .chr codepoint => do return [← (Chloride.chr codepoint).toOption]
  | .fromByte n => do return [← (Chloride.fromByte n).toOption]
  | .repr a => do return [(cQuoteString ctype (← content a)).takeWhile (· ≠ 0)]
  | .renderTemplate items => do return [(← items.mapM content).flatten]
  | .iter a => do
    let _ ← content a
    return []
  | .next it => do
    let (data, current) ← position it
    return [[← data[current]?]]

/-- Whether an operation is `upper`, `lower` or `title`: then its argument, and what its loop does. -/
def StringOp.caseChange (ctype : CType) :
    StringOp → Option (StringPtr × (List UInt8 → List UInt8))
  | .upper a => some (a, upperBytes ctype)
  | .lower a => some (a, lowerBytes ctype)
  | .title a => some (a, titleBytes ctype true)
  | _ => none

namespace StringStore

/-- The string of an iterator, and where the iterator is. -/
def position (s : StringStore) (it : ℕ) : Option (List UInt8 × ℕ) := do
  return (← s.iterated it, (← s.iterators[it]?).current)

/-- An operation, with the string objects that it answers. -/
def attempt (ctype : CType) (s : StringStore) : StringOp → Option (List StringPtr × StringStore)
  | .fieldName data =>
    let (dataPtr, s) := s.alloc data
    let (a, s) := s.newStringObjectWithoutMemcpy ⟨dataPtr, data.length⟩
    some ([a], s)
  | .construct a => do
    -- `init_string` takes the data of the other object as it is
    let str ← s.argonToString a
    let (self, s) := s.newStringObjectWithoutMemcpy str
    return ([self], s)
  | .add a b => do
    let data := (← s.content a) ++ (← s.content b)
    let (concat, s) := s.alloc data
    let (object, s) := s.newStringObjectWithoutMemcpy ⟨concat, data.length⟩
    return ([object], s)
  | .upper a => s.changeCase (upperBytes ctype) a
  | .lower a => s.changeCase (lowerBytes ctype) a
  | .title a => s.changeCase (titleBytes ctype true) a
  | .replace a old new => do
    let self ← s.content a
    let old ← s.content old
    let new ← s.content new
    if old = [] ∨ countOccurrences old 0 self = 0 then return ([a], s)
    else return s.newStringObjects [replaceBytes old new 0 self]
  | .iter a => do
    let self ← s.argonToString a
    return ([], { s with iterators := s.iterators ++ [⟨self.data, self.length, 0⟩] })
  | .next it => do
    let iterator ← s.iterators[it]?
    guard (iterator.current < iterator.length)
    let c ← (← s.bytes iterator.data)[iterator.current]?
    let (a, s) := s.newStringObject [c]
    let iterators := s.iterators.set it { iterator with current := iterator.current + 1 }
    return ([a], { s with iterators := iterators })
  | op => do
    -- all others give the bytes that they compute to `new_string_object`
    let strings ← op.value ctype s.content s.position
    return s.newStringObjects strings

/-- An operation; one that fails makes nothing. -/
def step (ctype : CType) (s : StringStore) (op : StringOp) : List StringPtr × StringStore :=
  (s.attempt ctype op).getD ([], s)

/-- The operations one after the other. -/
def run (ctype : CType) (s : StringStore) (ops : List StringOp) : StringStore :=
  ops.foldl (fun s op => (s.step ctype op).2) s

@[simp]
theorem run_append_singleton (ctype : CType) (s : StringStore) (ops : List StringOp) (op : StringOp) :
    s.run ctype (ops ++ [op]) = ((s.run ctype ops).step ctype op).2 := by
  rw [run, List.foldl_append]
  rfl

/-! ## What an operation leaves alone -/

/-- The elements of a list are those of every list that it begins. -/
theorem getElem?_of_prefix {α : Type*} {l l' : List α} (h : l <+: l') {i : ℕ} {a : α}
    (ha : l[i]? = some a) : l'[i]? = some a := by
  obtain ⟨rest, rfl⟩ := h
  have hlt : i < l.length := (List.getElem?_eq_some_iff.mp ha).1
  rw [List.getElem?_append_left hlt]
  exact ha

/-- Everything that a store holds is in the other one as well. -/
structure Extends (s s' : StringStore) : Prop where
  smallChars : s'.smallChars = s.smallChars
  data : s.data <+: s'.data
  objects : s.objects <+: s'.objects
  iterators : ∀ (it : ℕ) (iterator : StringIterator), s.iterators[it]? = some iterator →
    ∃ current, s'.iterators[it]? = some { iterator with current := current }

theorem Extends.refl (s : StringStore) : Extends s s where
  smallChars := rfl
  data := List.prefix_refl _
  objects := List.prefix_refl _
  iterators _ iterator h := ⟨iterator.current, h⟩

theorem Extends.trans {s t u : StringStore} (h : Extends s t) (h' : Extends t u) : Extends s u where
  smallChars := h'.smallChars.trans h.smallChars
  data := h.data.trans h'.data
  objects := h.objects.trans h'.objects
  iterators it iterator hit := by
    obtain ⟨current, ht⟩ := h.iterators it iterator hit
    obtain ⟨current', hu⟩ := h'.iterators it _ ht
    exact ⟨current', hu⟩

theorem Extends.bytes {s s' : StringStore} (h : Extends s s') {p : DataPtr} {data : List UInt8}
    (hp : s.bytes p = some data) : s'.bytes p = some data := by
  cases p with
  | emptyStr => exact hp
  | smallChar c =>
    unfold StringStore.bytes at hp ⊢
    rw [h.smallChars]
    exact hp
  | allocated i => exact getElem?_of_prefix h.data hp

theorem Extends.argonToString {s s' : StringStore} (h : Extends s s') {a : StringPtr}
    {str : StringStruct} (ha : s.argonToString a = some str) : s'.argonToString a = some str := by
  cases a with
  | emptyStr => exact ha
  | smallChar c => exact ha
  | object i => exact getElem?_of_prefix h.objects ha

theorem content_eq_some {s : StringStore} {a : StringPtr} {data : List UInt8} :
    s.content a = some data ↔ ∃ str buffer, s.argonToString a = some str ∧
      s.bytes str.data = some buffer ∧ buffer.take str.length = data := by
  simp [content, Option.bind_eq_some_iff]

theorem iterated_eq_some {s : StringStore} {it : ℕ} {data : List UInt8} :
    s.iterated it = some data ↔ ∃ iterator buffer, s.iterators[it]? = some iterator ∧
      s.bytes iterator.data = some buffer ∧ buffer.take iterator.length = data := by
  simp [iterated, Option.bind_eq_some_iff]

/-- The strings of a store are in every store that extends it. -/
theorem Extends.content {s s' : StringStore} (h : Extends s s') {a : StringPtr} {data : List UInt8}
    (ha : s.content a = some data) : s'.content a = some data := by
  obtain ⟨str, buffer, hstr, hbuffer, rfl⟩ := content_eq_some.mp ha
  exact content_eq_some.mpr ⟨str, buffer, h.argonToString hstr, h.bytes hbuffer, rfl⟩

/-- The iterators of a store go through the same strings in every store that extends it. -/
theorem Extends.iterated {s s' : StringStore} (h : Extends s s') {it : ℕ} {data : List UInt8}
    (hit : s.iterated it = some data) : s'.iterated it = some data := by
  obtain ⟨iterator, buffer, hiterator, hbuffer, rfl⟩ := iterated_eq_some.mp hit
  obtain ⟨current, hcurrent⟩ := h.iterators it iterator hiterator
  exact iterated_eq_some.mpr ⟨_, buffer, hcurrent, h.bytes hbuffer, rfl⟩

/-! ## What an operation makes -/

/-- The result of an operation adds to the store, and its string objects hold these strings. -/
structure Makes (s : StringStore) (result : List StringPtr × StringStore)
    (strings : List (List UInt8)) : Prop where
  adds : Extends s result.2
  content : result.1.map result.2.content = strings.map some

theorem alloc_extends (s : StringStore) (data : List UInt8) : Extends s (s.alloc data).2 :=
  { Extends.refl s with data := List.prefix_append _ _ }

theorem alloc_bytes (s : StringStore) (data : List UInt8) :
    (s.alloc data).2.bytes (s.alloc data).1 = some data := by
  simp [alloc, bytes]

theorem newStringObjectWithoutMemcpy_extends (s : StringStore) (str : StringStruct) :
    Extends s (s.newStringObjectWithoutMemcpy str).2 :=
  { Extends.refl s with objects := List.prefix_append _ _ }

/-- A new object holds the bytes that its data pointer leads to. -/
theorem newStringObjectWithoutMemcpy_makes {s : StringStore} {str : StringStruct}
    {buffer : List UInt8} (h : s.bytes str.data = some buffer) :
    Makes s ([(s.newStringObjectWithoutMemcpy str).1], (s.newStringObjectWithoutMemcpy str).2)
      [buffer.take str.length] where
  adds := s.newStringObjectWithoutMemcpy_extends str
  content := by
    have hstr : (s.newStringObjectWithoutMemcpy str).2.argonToString
        (s.newStringObjectWithoutMemcpy str).1 = some str := by
      simp [newStringObjectWithoutMemcpy, argonToString]
    have hbytes := (s.newStringObjectWithoutMemcpy_extends str).bytes h
    have hcontent := content_eq_some.mpr ⟨str, buffer, hstr, hbytes, rfl⟩
    simp [hcontent]

/-- A new object with a copy of some bytes holds them. -/
theorem alloc_makes (s : StringStore) (data : List UInt8) :
    Makes s ([((s.alloc data).2.newStringObjectWithoutMemcpy
        ⟨(s.alloc data).1, data.length⟩).1],
      ((s.alloc data).2.newStringObjectWithoutMemcpy ⟨(s.alloc data).1, data.length⟩).2) [data] := by
  have hmakes := @newStringObjectWithoutMemcpy_makes _ ⟨(s.alloc data).1, data.length⟩ _
    (s.alloc_bytes data)
  have hdata : data.take data.length = data := List.take_length
  exact ⟨(s.alloc_extends data).trans hmakes.adds, by rw [hmakes.content]; simp [hdata]⟩

/-- The bytes of `small_chars` are those that they are there for. -/
def Intact (s : StringStore) : Prop := ∀ c, s.smallChars c = c

theorem Extends.intact {s s' : StringStore} (h : Extends s s') (hs : s.Intact) : s'.Intact := by
  intro c
  rw [h.smallChars]
  exact hs c

/-- `new_string_object` makes the string, as long as `small_chars` is intact. -/
theorem Intact.newStringObject {s : StringStore} (hs : s.Intact) (data : List UInt8) :
    Makes s ([(s.newStringObject data).1], (s.newStringObject data).2) [data] := by
  match data with
  | [] => exact ⟨Extends.refl s, by simp [StringStore.newStringObject, content, argonToString, bytes]⟩
  | [c] =>
    refine ⟨Extends.refl s, ?_⟩
    have hc := hs c
    simp [StringStore.newStringObject, content, argonToString, bytes, hc]
  | c :: c' :: data => exact s.alloc_makes (c :: c' :: data)

theorem Intact.newStringObjects {s : StringStore} (hs : s.Intact) (strings : List (List UInt8)) :
    Makes s (s.newStringObjects strings) strings := by
  induction strings generalizing s with
  | nil => exact ⟨Extends.refl s, rfl⟩
  | cons data rest ih =>
    have hfirst := hs.newStringObject data
    have hrest := ih (hfirst.adds.intact hs)
    refine ⟨hfirst.adds.trans hrest.adds, ?_⟩
    have hcontent : (s.newStringObject data).2.content (s.newStringObject data).1 = some data := by
      have hall := hfirst.content
      simpa using hall
    have hkept := hrest.adds.content hcontent
    have hothers := hrest.content
    simp only [StringStore.newStringObjects, List.map_cons]
    rw [hkept, hothers]

/-- The operation is a change of the case of a string of one byte, and does change it. -/
def Corrupts (ctype : CType) (s : StringStore) (op : StringOp) : Prop :=
  ∃ a f c, op.caseChange ctype = some (a, f) ∧ s.content a = some [c] ∧ f [c] ≠ [c]

/-- An operation makes the strings that it should, and changes nothing. -/
structure Handles (ctype : CType) (s : StringStore) (op : StringOp) : Prop where
  makes : ∀ strings, op.value ctype s.content s.position = some strings →
    ∃ result, s.attempt ctype op = some result ∧ Makes s result strings
  adds : ∀ result, s.attempt ctype op = some result → Extends s result.2

/-- The operations that give the bytes that they compute to `new_string_object`. -/
theorem Intact.handles_of_attempt {ctype : CType} {s : StringStore} (hs : s.Intact) {op : StringOp}
    (hop : s.attempt ctype op =
      (op.value ctype s.content s.position).map s.newStringObjects) : Handles ctype s op where
  makes strings hvalue := ⟨_, by rw [hop, hvalue]; rfl, hs.newStringObjects strings⟩
  adds result hresult := by
    rw [hop] at hresult
    obtain ⟨strings, -, rfl⟩ := Option.map_eq_some_iff.mp hresult
    exact (hs.newStringObjects strings).adds

theorem handles_fieldName (ctype : CType) (s : StringStore) (data : List UInt8) :
    Handles ctype s (.fieldName data) where
  makes strings hvalue := by
    obtain rfl := Option.some.inj hvalue
    exact ⟨_, rfl, s.alloc_makes data⟩
  adds result hresult := by
    obtain rfl := Option.some.inj hresult
    exact (s.alloc_makes data).adds

theorem handles_construct (ctype : CType) (s : StringStore) (a : StringPtr) :
    Handles ctype s (.construct a) where
  makes strings hvalue := by
    simp only [StringOp.value, Option.bind_eq_bind, Option.bind_eq_some_iff] at hvalue
    obtain ⟨data, hdata, hstrings⟩ := hvalue
    obtain rfl := Option.some.inj hstrings
    obtain ⟨str, buffer, hstr, hbuffer, rfl⟩ := content_eq_some.mp hdata
    refine ⟨_, ?_, newStringObjectWithoutMemcpy_makes hbuffer⟩
    simp [attempt, hstr]
  adds result hresult := by
    simp only [attempt, Option.bind_eq_bind, Option.bind_eq_some_iff] at hresult
    obtain ⟨str, -, hresult⟩ := hresult
    obtain rfl := Option.some.inj hresult
    exact s.newStringObjectWithoutMemcpy_extends str

theorem handles_add (ctype : CType) (s : StringStore) (a b : StringPtr) :
    Handles ctype s (.add a b) where
  makes strings hvalue := by
    simp only [StringOp.value, Option.bind_eq_bind, Option.bind_eq_some_iff] at hvalue
    obtain ⟨data, hdata, data', hdata', hstrings⟩ := hvalue
    obtain rfl := Option.some.inj hstrings
    refine ⟨_, ?_, s.alloc_makes (data ++ data')⟩
    simp [attempt, hdata, hdata']
  adds result hresult := by
    simp only [attempt, Option.bind_eq_bind, Option.bind_eq_some_iff] at hresult
    obtain ⟨data, -, data', -, hresult⟩ := hresult
    obtain rfl := Option.some.inj hresult
    exact (s.alloc_makes (data ++ data')).adds

/-- Where nothing is found, nothing is replaced. -/
theorem replaceBytes_of_countOccurrences {old new : List UInt8} {self : List UInt8}
    (h : countOccurrences old 0 self = 0) : replaceBytes old new 0 self = self := by
  induction self with
  | nil => rfl
  | cons c self ih =>
    unfold countOccurrences at h
    unfold replaceBytes
    by_cases hfound : old.isPrefixOf (c :: self) = true
    · rw [if_pos hfound] at h
      omega
    · rw [if_neg hfound] at h ⊢
      rw [ih h]

theorem Intact.handles_replace {s : StringStore} (hs : s.Intact) (ctype : CType)
    (a old new : StringPtr) : Handles ctype s (.replace a old new) where
  makes strings hvalue := by
    simp only [StringOp.value, Option.bind_eq_bind, Option.bind_eq_some_iff] at hvalue
    obtain ⟨self, hself, oldData, hold, newData, hnew, hstrings⟩ := hvalue
    obtain rfl := Option.some.inj hstrings
    by_cases hsame : oldData = [] ∨ countOccurrences oldData 0 self = 0
    · -- the string itself is the answer
      have hdata : (if oldData = [] then self else replaceBytes oldData newData 0 self) = self := by
        split
        · rfl
        · exact replaceBytes_of_countOccurrences (hsame.resolve_left ‹_›)
      refine ⟨([a], s), by simp [attempt, hself, hold, hnew, hsame], Extends.refl s, ?_⟩
      simp [hdata, hself]
    · -- The answer is a new string.
      rw [not_or] at hsame
      refine ⟨_, ?_, hs.newStringObjects _⟩
      simp [attempt, hself, hold, hnew, hsame.1, hsame.2]
  adds result hresult := by
    simp only [attempt, Option.bind_eq_bind, Option.bind_eq_some_iff] at hresult
    obtain ⟨self, -, oldData, -, newData, -, hresult⟩ := hresult
    split at hresult
    · obtain rfl := Option.some.inj hresult
      exact Extends.refl s
    · obtain rfl := Option.some.inj hresult
      exact (hs.newStringObjects _).adds

theorem handles_iter (ctype : CType) (s : StringStore) (a : StringPtr) :
    Handles ctype s (.iter a) := by
  have hadds : ∀ iterator, Extends s { s with iterators := s.iterators ++ [iterator] } := by
    intro iterator
    exact { Extends.refl s with
      iterators := fun it i hi => ⟨i.current, getElem?_of_prefix (List.prefix_append _ _) hi⟩ }
  constructor
  · intro strings hvalue
    simp only [StringOp.value, Option.bind_eq_bind, Option.bind_eq_some_iff] at hvalue
    obtain ⟨data, hdata, hstrings⟩ := hvalue
    obtain rfl := Option.some.inj hstrings
    obtain ⟨str, buffer, hstr, hbuffer, rfl⟩ := content_eq_some.mp hdata
    exact ⟨_, by simp [attempt, hstr]; rfl, hadds _, rfl⟩
  · intro result hresult
    simp only [attempt, Option.bind_eq_bind, Option.bind_eq_some_iff] at hresult
    obtain ⟨str, -, hresult⟩ := hresult
    obtain rfl := Option.some.inj hresult
    exact hadds _

/-- Moving an iterator on adds nothing and changes nothing else. -/
theorem set_iterators_extends {s : StringStore} {it : ℕ} {iterator : StringIterator}
    (h : s.iterators[it]? = some iterator) (current : ℕ) :
    Extends s { s with iterators := s.iterators.set it { iterator with current := current } } :=
  { Extends.refl s with
    iterators := by
      intro it' iterator' hit'
      by_cases hit : it = it'
      · subst hit
        rw [h] at hit'
        obtain rfl := Option.some.inj hit'
        have hlt : it < s.iterators.length := (List.getElem?_eq_some_iff.mp h).1
        exact ⟨current, by simp [hlt]⟩
      · exact ⟨iterator'.current, by simp [List.getElem?_set_ne hit, hit']⟩ }

theorem newStringObject_iterators (s : StringStore) (data : List UInt8) :
    (s.newStringObject data).2.iterators = s.iterators := by
  match data with
  | [] => rfl
  | [c] => rfl
  | c :: c' :: data => rfl

theorem Intact.handles_next {s : StringStore} (hs : s.Intact) (ctype : CType) (it : ℕ) :
    Handles ctype s (.next it) := by
  -- The character is made, and then the iterator is moved, which changes no string.
  have hmakes : ∀ iterator c, s.iterators[it]? = some iterator →
      Makes s ([(s.newStringObject [c]).1],
        { (s.newStringObject [c]).2 with
          iterators := (s.newStringObject [c]).2.iterators.set it
            { iterator with current := iterator.current + 1 } }) [[c]] := by
    intro iterator c hit
    have hnew := hs.newStringObject [c]
    have hset := set_iterators_extends (s := (s.newStringObject [c]).2)
      (by rw [newStringObject_iterators]; exact hit) (iterator.current + 1)
    refine ⟨hnew.adds.trans hset, ?_⟩
    have hcontent : (s.newStringObject [c]).2.content (s.newStringObject [c]).1 = some [c] := by
      simpa using hnew.content
    have hkept := hset.content hcontent
    simpa using hkept
  constructor
  · intro strings hvalue
    simp only [StringOp.value, position, Option.bind_eq_bind, Option.bind_eq_some_iff] at hvalue
    obtain ⟨⟨data, current⟩, hposition, c, hc, hstrings⟩ := hvalue
    obtain rfl := Option.some.inj hstrings
    obtain ⟨data', hdata', iterator, hiterator, hpair⟩ := hposition
    obtain ⟨rfl, rfl⟩ := Prod.mk.inj (Option.some.inj hpair)
    obtain ⟨iterator', buffer, hiterator', hbuffer, rfl⟩ := iterated_eq_some.mp hdata'
    rw [hiterator] at hiterator'
    obtain rfl := Option.some.inj hiterator'
    dsimp only at hc
    rw [List.getElem?_take] at hc
    -- The string has a character there, so the iterator is not at its end.
    have hlt : iterator.current < iterator.length := by
      by_contra hge
      rw [if_neg hge] at hc
      cases hc
    rw [if_pos hlt] at hc
    refine ⟨_, ?_, hmakes iterator c hiterator⟩
    simp [attempt, hiterator, hbuffer, hc, hlt]
  · intro result hresult
    simp only [attempt, Option.bind_eq_bind, Option.bind_eq_some_iff] at hresult
    obtain ⟨iterator, hiterator, -, -, buffer, -, c, -, hresult⟩ := hresult
    obtain rfl := Option.some.inj hresult
    exact (hmakes iterator c hiterator).adds

/-! ## Changing the case -/

theorem length_titleBytes (ctype : CType) (newWord : Bool) (data : List UInt8) :
    (titleBytes ctype newWord data).length = data.length := by
  induction data generalizing newWord with
  | nil => rfl
  | cons c data ih =>
    unfold titleBytes
    split
    · simp [ih]
    · split <;> simp [ih]

/-- The loops of `upper`, `lower` and `title` write as many bytes as there are. -/
theorem length_caseChange {ctype : CType} {op : StringOp} {a : StringPtr}
    {f : List UInt8 → List UInt8} (h : op.caseChange ctype = some (a, f)) (data : List UInt8) :
    (f data).length = data.length := by
  cases op with
  | upper a =>
    obtain ⟨rfl, rfl⟩ := Prod.mk.inj (Option.some.inj h)
    exact List.length_map _
  | lower a =>
    obtain ⟨rfl, rfl⟩ := Prod.mk.inj (Option.some.inj h)
    exact List.length_map _
  | title a =>
    obtain ⟨rfl, rfl⟩ := Prod.mk.inj (Option.some.inj h)
    exact length_titleBytes ctype true data
  | _ => cases h

theorem modify_append_singleton {α : Type*} (l : List α) (a : α) (f : α → α) :
    (l ++ [a]).modify l.length f = l ++ [f a] := by
  induction l with
  | nil => rfl
  | cons b l ih =>
    rw [List.cons_append, List.length_cons, List.modify_succ_cons, ih]
    rfl

/-- The loop writes into the result of `new_string_object`: into nothing for the empty string, into
`small_chars` for one byte, and into a copy otherwise. -/
theorem Intact.changeCase {s : StringStore} (hs : s.Intact) {f : List UInt8 → List UInt8}
    (hf : ∀ data, (f data).length = data.length) {a : StringPtr} {data : List UInt8}
    (ha : s.content a = some data) (hkeep : ∀ c, data = [c] → f [c] = [c]) :
    ∃ result, s.changeCase f a = some result ∧ Makes s result [f data] := by
  match data with
  -- The empty string has one object for all, which nothing is written to.
  | [] =>
    have hnil : f [] = [] := List.length_eq_zero_iff.mp (hf [])
    refine ⟨([.emptyStr], s), ?_, Extends.refl s, ?_⟩
    · simp [StringStore.changeCase, ha, StringStore.newStringObject, argonToString, write]
    · simp [content, argonToString, bytes, hnil]
  -- The object of a character is written to, here with the character it has.
  | [c] =>
    have hc : f [c] = [c] := hkeep c rfl
    have hsame : Function.update s.smallChars c c = s.smallChars := by
      rw [Function.update_eq_self_iff]
      exact (hs c).symm
    have hsc := hs c
    refine ⟨([.smallChar c], s), ?_, Extends.refl s, ?_⟩
    · simp [StringStore.changeCase, ha, StringStore.newStringObject, argonToString, write, hsc, hc,
        hsame]
    · simp [content, argonToString, bytes, hsc, hc]
  | c :: c' :: data =>
    -- the copy is written before anything else leads to it
    have hlength := hf (c :: c' :: data)
    refine ⟨_, ?_, s.alloc_makes (f (c :: c' :: data))⟩
    have hwritten : (s.data ++ [c :: c' :: data]).modify s.data.length (fun buffer =>
          f (buffer.take (c :: c' :: data).length) ++ buffer.drop (c :: c' :: data).length) =
        s.data ++ [f (c :: c' :: data)] := by
      rw [modify_append_singleton]
      simp
    simp only [List.length_cons] at hwritten hlength
    simp [StringStore.changeCase, ha, StringStore.newStringObject, argonToString, write, alloc,
      newStringObjectWithoutMemcpy, hlength, hwritten]

theorem attempt_caseChange {ctype : CType} (s : StringStore) {op : StringOp} {a : StringPtr}
    {f : List UInt8 → List UInt8} (h : op.caseChange ctype = some (a, f)) :
    s.attempt ctype op = s.changeCase f a ∧
      op.value ctype s.content s.position = (s.content a).map fun data => [f data] := by
  cases op with
  | upper a =>
    obtain ⟨rfl, rfl⟩ := Prod.mk.inj (Option.some.inj h)
    exact ⟨rfl, by cases hc : s.content a <;> simp [StringOp.value, hc]⟩
  | lower a =>
    obtain ⟨rfl, rfl⟩ := Prod.mk.inj (Option.some.inj h)
    exact ⟨rfl, by cases hc : s.content a <;> simp [StringOp.value, hc]⟩
  | title a =>
    obtain ⟨rfl, rfl⟩ := Prod.mk.inj (Option.some.inj h)
    exact ⟨rfl, by cases hc : s.content a <;> simp [StringOp.value, hc]⟩
  | _ => cases h

theorem Intact.handles_caseChange {ctype : CType} {s : StringStore} (hs : s.Intact) {op : StringOp}
    {a : StringPtr} {f : List UInt8 → List UInt8} (h : op.caseChange ctype = some (a, f))
    (hop : ¬s.Corrupts ctype op) : Handles ctype s op := by
  obtain ⟨hattempt, hvalue⟩ := s.attempt_caseChange h
  -- A string of one character keeps it, for else the object of the character changes.
  have hmakes : ∀ data, s.content a = some data →
      ∃ result, s.changeCase f a = some result ∧ Makes s result [f data] := by
    intro data ha
    refine hs.changeCase (length_caseChange h) ha fun c hc => ?_
    by_contra hne
    exact hop ⟨a, f, c, h, hc ▸ ha, hne⟩
  constructor
  · intro strings hstrings
    rw [hvalue] at hstrings
    obtain ⟨data, ha, rfl⟩ := Option.map_eq_some_iff.mp hstrings
    rw [hattempt]
    exact hmakes data ha
  · intro result hresult
    rw [hattempt] at hresult
    cases ha : s.content a with
    | none => simp [StringStore.changeCase, ha] at hresult
    | some data =>
      obtain ⟨result', hresult', hadds⟩ := hmakes data ha
      rw [hresult] at hresult'
      exact Option.some.inj hresult' ▸ hadds.adds

/-- While `small_chars` is intact, every operation that does not corrupt it makes the strings that it
should and changes nothing. -/
theorem Intact.handles {ctype : CType} {s : StringStore} (hs : s.Intact) {op : StringOp}
    (hop : ¬s.Corrupts ctype op) : Handles ctype s op := by
  cases op with
  | fieldName data => exact handles_fieldName ctype s data
  | construct a => exact handles_construct ctype s a
  | add a b => exact handles_add ctype s a b
  | upper a => exact hs.handles_caseChange rfl hop
  | lower a => exact hs.handles_caseChange rfl hop
  | title a => exact hs.handles_caseChange rfl hop
  | replace a old new => exact hs.handles_replace ctype a old new
  | iter a => exact handles_iter ctype s a
  | next it => exact hs.handles_next ctype it
  | _ =>
    refine hs.handles_of_attempt ?_
    unfold attempt
    dsimp only
    cases StringOp.value ctype s.content s.position _ <;> rfl

theorem Handles.step_extends {ctype : CType} {s : StringStore} {op : StringOp}
    (h : Handles ctype s op) : Extends s (s.step ctype op).2 := by
  unfold step
  cases hresult : s.attempt ctype op with
  | none => exact Extends.refl s
  | some result => exact h.adds result hresult

/-- A change of the case of a one-byte string that changes the byte leaves it in `small_chars`. -/
theorem Corrupts.content {ctype : CType} {s : StringStore} {op : StringOp} (h : s.Corrupts ctype op)
    (hs : s.Intact) : ∃ c, s.content (.smallChar c) = some [c] ∧
      (s.step ctype op).2.content (.smallChar c) ≠ some [c] := by
  obtain ⟨a, f, c, hcase, ha, hne⟩ := h
  have hsc := hs c
  obtain ⟨d, hd⟩ := List.length_eq_one_iff.mp (length_caseChange hcase [c])
  have hdc : d ≠ c := by
    rintro rfl
    exact hne hd
  refine ⟨c, by simp [StringStore.content, argonToString, bytes, hsc], ?_⟩
  have hattempt := (s.attempt_caseChange hcase).1
  have hstep : (s.step ctype op).2 = s.write 1 f (.smallChar c) := by
    simp [step, hattempt, StringStore.changeCase, ha, StringStore.newStringObject, argonToString]
  rw [hstep]
  simp [StringStore.content, argonToString, bytes, write, hsc, hd, hdc]

end StringStore

/-! ## Strings are values -/

namespace StringStore

/-- No operation of the run corrupts `small_chars`. -/
def Unharmed (ctype : CType) (ops : List StringOp) : Prop :=
  ∀ before op, before ++ [op] <+: ops → ¬(init.run ctype before).Corrupts ctype op

theorem Unharmed.intact {ctype : CType} {ops : List StringOp} (h : Unharmed ctype ops) :
    ∀ before, before <+: ops → (init.run ctype before).Intact := by
  intro before
  induction before using List.reverseRecOn with
  | nil => exact fun _ c => rfl
  | append_singleton before op ih =>
    intro hbefore
    have hinitial := (List.prefix_append before [op]).trans hbefore
    have hintact := ih hinitial
    rw [run_append_singleton]
    exact (hintact.handles (h before op hbefore)).step_extends.intact hintact

theorem Unharmed.extends {ctype : CType} {ops : List StringOp} (h : Unharmed ctype ops)
    (before : List StringOp) : ∀ after, before ++ after <+: ops →
      Extends (init.run ctype before) (init.run ctype (before ++ after)) := by
  intro after
  induction after using List.reverseRecOn with
  | nil =>
    intro _
    rw [List.append_nil]
    exact Extends.refl _
  | append_singleton after op ih =>
    intro hafter
    rw [← List.append_assoc] at hafter ⊢
    have hinitial := (List.prefix_append (before ++ after) [op]).trans hafter
    have hintact := h.intact (before ++ after) hinitial
    rw [run_append_singleton]
    exact (ih hinitial).trans (hintact.handles (h (before ++ after) op hafter)).step_extends

end StringStore

end Chloride
