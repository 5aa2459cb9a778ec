import Chloride.Hashmap.Room
import Chloride.Runtime.FloorDivision
import Chloride.Stdlib.Url

/-!
# Encoding URLs

`encode`, `queryStr` and `decodeURLQuery` of `stdlib/url/init.ar`, and `hex` of `stdlib/hex/init.ar`. What
`encode` gives is made of the characters that need no escape, of plus signs and of escapes, so it is well
escaped and has no separator of a query in it; decoded, it is the string. A query is taken apart at the
separators again and its items are set one after the other in a new dictionary: `url_codec` says that this
is the dictionary that the query was made from.
-/

namespace Chloride

namespace Url

open Splitting Fields

/-! ## The functions -/

def toNotEncode : Str :=
  "ABCDEFGHIJKLMNOPQRSTUVWXYZabcdefghijklmnopqrstuvwxyz0123456789-_.~ ".toList.map byte

def hexDigits : Str := "0123456789ABCDEF".toList.map byte

/-- The loop of `hex`, with as many rounds as it can take. -/
def hexLoop : ℕ → Number → Str → ExceptT ArErr Option Str
  | 0, _, _ => ExceptT.mk none
  | fuel + 1, n, result =>
    if doGreaterThan n (.i64 0) then do
      let index ← ExceptT.mk (some (StringSearch.argonToI64 (← ExceptT.mk (doModulo n (.i64 16)))))
      let digit ← ExceptT.mk (some (getitemBytes hexDigits index))
      hexLoop fuel (← ExceptT.mk (doFloorDivision n (.i64 16))) (digit ++ result)
    else pure result

/-- `hex`; `maths.abs` negates a number below zero. -/
def hex (n : Number) : ExceptT ArErr Option Str :=
  if doEqual n (.i64 0) then pure [byte '0']
  else do
    let n ← if doLessThan n (.i64 0) then ExceptT.lift (doNegation n) else pure n
    hexLoop (n.toRat.num.natAbs + 1) n []

/-- A round of the loop of `encode`. -/
def encodeChar (char : UInt8) : ExceptT ArErr Option Str :=
  if [char] <:+: toNotEncode then pure [char]
  else do
    let hexidecimal ← hex (.i64 (Int64.ofNat char.toNat))
    let hexidecimal := if hexidecimal.length < 2 then byte '0' :: hexidecimal else hexidecimal
    return percent :: hexidecimal

def encode (data : Str) : ExceptT ArErr Option Str := do
  let encoded ← data.mapM encodeChar
  return replaced [space] [plus] (List.intercalate [] encoded)

def ampersand : UInt8 := byte '&'

def equals : UInt8 := byte '='

variable (siphash64 : List UInt8 → UInt64)

/-- A round of the loop of `decodeURLQuery`. -/
def decodeItem (query : HashmapGC Str Str) (q : Str) : ExceptT ArErr Option (HashmapGC Str Str) := do
  let queryItem := allPieces [equals] q
  let nameDecoded ← decode (queryItem.headD [])
  let value ← if queryItem.length < 2 then pure [] else decode ([equals].intercalate queryItem.tail)
  ExceptT.lift (query.insert (siphash64 nameDecoded) nameDecoded value 0)

def decodeURLQuery (querytext : Str) : ExceptT ArErr Option (HashmapGC Str Str) :=
  if querytext.length = 0 then pure HashmapGC.create
  else (allPieces [ampersand] querytext).foldlM (decodeItem siphash64) HashmapGC.create

/-- `queryStr`; the iterator gives the nodes in their order. -/
def queryStr (queries : HashmapGC Str Str) : ExceptT ArErr Option Str := do
  let queryStr ← queries.toArray.mapM fun query => do
    return (← encode query.key) ++ [equals] ++ (← encode query.val)
  return [ampersand].intercalate queryStr

/-! ## What encoding is -/

/-- What a byte is encoded as, before the spaces are replaced. -/
def escape (c : UInt8) : Str :=
  if c ∈ toNotEncode then [c] else [percent, hexDigit (c.toNat / 16), hexDigit (c.toNat % 16)]

set_option maxRecDepth 5000 in
/-- The hexadecimal digits of a byte. -/
theorem hex_byte (c : UInt8) : (hex (.i64 (Int64.ofNat c.toNat))).run = some (.ok
    (if c < 16 then [hexDigit (c.toNat % 16)] else [hexDigit (c.toNat / 16), hexDigit (c.toNat % 16)])) := by
  revert c
  decide

theorem encodeChar_eq (c : UInt8) : (encodeChar c).run = some (.ok (escape c)) := by
  have hmiddle : [c] <:+: toNotEncode ↔ c ∈ toNotEncode := List.singleton_infix_iff c toNotEncode
  rw [encodeChar, escape]
  by_cases hmem : c ∈ toNotEncode
  · rw [if_pos (hmiddle.mpr hmem), if_pos hmem]
    rfl
  · rw [if_neg (mt hmiddle.mp hmem), if_neg hmem]
    refine run_bind_eq_ok.mpr ⟨_, hex_byte c, ?_⟩
    by_cases hsmall : c < 16
    · have hzero : hexDigit (c.toNat / 16) = byte '0' := by
        have hlt : c.toNat < 16 := UInt8.lt_iff_toNat_lt.mp hsmall
        rw [Nat.div_eq_of_lt hlt]
        rfl
      rw [if_pos hsmall, hzero]
      rfl
    · rw [if_neg hsmall]
      rfl

/-- What a string is encoded as. -/
def encoded (s : Str) : Str := (s.flatMap escape).map fun c => if c = space then plus else c

/-- A text of characters that need no escape, of plus signs and of escapes. -/
inductive Escaped : Str → Prop
  | nil : Escaped []
  | plain {c : UInt8} {t : Str} : c ∈ toNotEncode → c ≠ space → Escaped t → Escaped (c :: t)
  | plus {t : Str} : Escaped t → Escaped (plus :: t)
  | escape {a b : UInt8} {t : Str} :
    isHexDigit a = true → isHexDigit b = true → Escaped t → Escaped (percent :: a :: b :: t)

theorem mapM_eq_ok {α β : Type} {f : α → ExceptT ArErr Option β} {g : α → β} {L : List α}
    (h : ∀ a ∈ L, (f a).run = some (.ok (g a))) : (L.mapM f).run = some (.ok (L.map g)) := by
  induction L with
  | nil => rfl
  | cons a L ih =>
    rw [List.mapM_cons]
    refine run_bind_eq_ok.mpr ⟨g a, h a List.mem_cons_self, run_bind_eq_ok.mpr ⟨L.map g, ?_, rfl⟩⟩
    exact ih fun b hb => h b (List.mem_cons_of_mem _ hb)

theorem encode_eq (s : Str) : (encode s).run = some (.ok (encoded s)) := by
  have hchars : (s.mapM encodeChar).run = some (.ok (s.map escape)) := mapM_eq_ok fun c _ => encodeChar_eq c
  refine run_bind_eq_ok.mpr ⟨s.map escape, hchars, ?_⟩
  rw [nil_intercalate, replaced_singleton, ← List.flatMap_def]
  rfl

theorem encoded_cons (c : UInt8) (s : Str) :
    encoded (c :: s) = ((escape c).map fun c => if c = space then plus else c) ++ encoded s := by
  rw [encoded, List.flatMap_cons, List.map_append, encoded]

set_option maxRecDepth 5000 in
/-- A plain character stands for itself, and any other byte for an escape of it. -/
theorem escape_cases (c : UInt8) :
    c = space ∧ escape c = [space] ∨ c ∈ toNotEncode ∧ c ≠ space ∧ c ≠ percent ∧ c ≠ plus ∧ escape c = [c] ∨
      ∃ a b, escape c = [percent, a, b] ∧ isHexDigit a = true ∧ isHexDigit b = true ∧ escapedByte a b = c := by
  have hspace : space ∈ toNotEncode := by decide
  have hpercent : percent ∉ toNotEncode := by decide
  have hplus : plus ∉ toNotEncode := by decide
  by_cases hmem : c ∈ toNotEncode
  · have hescape : escape c = [c] := if_pos hmem
    by_cases hc : c = space
    · exact Or.inl ⟨hc, by rw [hescape, hc]⟩
    · exact Or.inr (Or.inl ⟨hmem, hc, fun h => hpercent (h ▸ hmem), fun h => hplus (h ▸ hmem), hescape⟩)
  · have hdigits : ∀ c : UInt8, isHexDigit (hexDigit (c.toNat / 16)) = true ∧
        isHexDigit (hexDigit (c.toNat % 16)) = true ∧
          escapedByte (hexDigit (c.toNat / 16)) (hexDigit (c.toNat % 16)) = c := by decide
    obtain ⟨ha, hb, hbyte⟩ := hdigits c
    exact Or.inr (Or.inr ⟨_, _, if_neg hmem, ha, hb, hbyte⟩)

set_option maxRecDepth 5000 in
theorem isHexDigit_ne {c : UInt8} (h : isHexDigit c = true) :
    c ≠ space ∧ c ≠ plus ∧ c ≠ percent ∧ c ≠ ampersand ∧ c ≠ equals := by
  revert c
  decide

/-- A hexadecimal digit is no space. -/
theorem map_digits {a b : UInt8} (ha : isHexDigit a = true) (hb : isHexDigit b = true) :
    [percent, a, b].map (fun c => if c = space then plus else c) = [percent, a, b] := by
  have hpercent : percent ≠ space := by decide
  rw [List.map_cons, List.map_cons, List.map_singleton, if_neg hpercent, if_neg (isHexDigit_ne ha).1,
    if_neg (isHexDigit_ne hb).1]

theorem escaped_encoded (s : Str) : Escaped (encoded s) := by
  induction s with
  | nil => exact Escaped.nil
  | cons c s ih =>
    rw [encoded_cons]
    rcases escape_cases c with ⟨-, h⟩ | ⟨hmem, hc, -, -, h⟩ | ⟨a, b, h, ha, hb, -⟩
    · rw [h, List.map_singleton, if_pos rfl]
      exact Escaped.plus ih
    · rw [h, List.map_singleton, if_neg hc]
      exact Escaped.plain hmem hc ih
    · rw [h, map_digits ha hb]
      exact Escaped.escape ha hb ih

/-- Decoding undoes encoding. -/
theorem decoded_encoded (s : Str) : decoded (encoded s) = s := by
  induction s with
  | nil => rfl
  | cons c s ih =>
    rw [encoded_cons, decoded, spaced, List.map_append]
    change unescape (_ ++ spaced (encoded s)) = c :: s
    rcases escape_cases c with ⟨hc, h⟩ | ⟨-, hc, hpercent, hplus, h⟩ | ⟨a, b, h, ha, hb, hbyte⟩
    · have hspace : space ≠ percent := by decide
      rw [h, List.map_singleton, if_pos rfl, List.map_singleton, if_pos rfl, List.singleton_append,
        unescape_of_ne hspace, hc]
      exact congrArg (space :: ·) ih
    · rw [h, List.map_singleton, if_neg hc, List.map_singleton, if_neg hplus, List.singleton_append,
        unescape_of_ne hpercent]
      exact congrArg (c :: ·) ih
    · have hpercent : percent ≠ plus := by decide
      rw [h, map_digits ha hb, List.map_cons, List.map_cons, List.map_singleton, if_neg hpercent,
        if_neg (isHexDigit_ne ha).2.1, if_neg (isHexDigit_ne hb).2.1, List.cons_append, List.cons_append,
        List.singleton_append, unescape_escape ha hb, hbyte]
      exact congrArg (c :: ·) ih

/-- Escaped text has no separators of a query in it. -/
theorem Escaped.not_mem {t : Str} (h : Escaped t) : ampersand ∉ t ∧ equals ∉ t := by
  have hampersand : ampersand ∉ toNotEncode := by decide
  have hequals : equals ∉ toNotEncode := by decide
  induction h with
  | nil => exact ⟨List.not_mem_nil, List.not_mem_nil⟩
  | plain hmem hc ht ih =>
    rw [List.mem_cons, List.mem_cons, not_or, not_or]
    exact ⟨⟨fun h => hampersand (h ▸ hmem), ih.1⟩, fun h => hequals (h ▸ hmem), ih.2⟩
  | plus ht ih =>
    rw [List.mem_cons, List.mem_cons, not_or, not_or]
    exact ⟨⟨by decide, ih.1⟩, by decide, ih.2⟩
  | escape ha hb ht ih =>
    have ha' := (isHexDigit_ne ha).2.2.2
    have hb' := (isHexDigit_ne hb).2.2.2
    simp only [List.mem_cons, not_or]
    exact ⟨⟨by decide, ha'.1.symm, hb'.1.symm, ih.1⟩, by decide, ha'.2.symm, hb'.2.symm, ih.2⟩

theorem Escaped.wellEscaped {t : Str} (h : Escaped t) : WellEscaped t := by
  have hpercent : percent ∉ toNotEncode := by decide
  intro a b hmiddle ha hb
  have hne : ∀ {c : UInt8} {u : Str}, c ≠ percent → [percent, a, b] <:+: c :: u → [percent, a, b] <:+: u :=
    fun hc hu => (List.infix_cons_iff.mp hu).resolve_left fun hp => hc (List.cons_prefix_cons.mp hp).1.symm
  induction h with
  | nil => exact absurd (List.infix_nil.mp hmiddle) (List.cons_ne_nil _ _)
  | plain hmem hc ht ih => exact ih (hne (fun h => hpercent (h ▸ hmem)) hmiddle)
  | plus ht ih => exact ih (hne (by decide) hmiddle)
  | escape ha' hb' ht ih =>
    rcases List.infix_cons_iff.mp hmiddle with hp | hrest
    · obtain ⟨hsame, hp⟩ := List.cons_prefix_cons.mp (List.cons_prefix_cons.mp hp).2
      rw [hsame, (List.cons_prefix_cons.mp hp).1]
      exact ⟨ha', hb'⟩
    · exact ih (hne (isHexDigit_ne hb').2.2.1 (hne (isHexDigit_ne ha').2.2.1 hrest))

theorem decode_encoded (s : Str) : (decode (encoded s)).run = some (.ok s) := by
  rw [decode_of_wellEscaped (escaped_encoded s).wellEscaped, decoded_encoded]

/-! ## Queries -/

/-- An item of a query. -/
def item (e : Str × Str) : Str := encoded e.1 ++ [equals] ++ encoded e.2

theorem isField_item (e : Str × Str) : IsField ampersand (item e) := by
  have hkey := (escaped_encoded e.1).not_mem.1
  have hvalue := (escaped_encoded e.2).not_mem.1
  refine ⟨List.append_ne_nil_of_left_ne_nil (List.append_ne_nil_of_right_ne_nil _ (List.cons_ne_nil _ _)) _, ?_⟩
  simp only [item, List.mem_append, List.mem_singleton, not_or]
  exact ⟨⟨hkey, by decide⟩, hvalue⟩

theorem allPieces_item (e : Str × Str) : allPieces [equals] (item e) = [encoded e.1, encoded e.2] := by
  rw [item, List.append_assoc, List.singleton_append, allPieces_append,
    allPieces_of_not_mem (escaped_encoded e.1).not_mem.2, allPieces_of_not_mem (escaped_encoded e.2).not_mem.2]
  rfl

/-- What the entries of a dictionary with these keys and values are. -/
def entriesOf (L : List (Str × Str)) : List (UInt64 × Str × Str) :=
  L.map fun e => (siphash64 e.1, e.1, e.2)

section

variable {siphash64}

/-- An item is set in the dictionary. -/
theorem decodeItem_item {query query' : HashmapGC Str Str} {e : Str × Str}
    (h : query.insert (siphash64 e.1) e.1 e.2 0 = some query') :
    (decodeItem siphash64 query (item e)).run = some (.ok query') := by
  have htail : [equals].intercalate [encoded e.2] = encoded e.2 := List.intercalate_singleton
  rw [decodeItem, allPieces_item]
  refine run_bind_eq_ok.mpr ⟨e.1, decode_encoded e.1, run_bind_eq_ok.mpr ⟨e.2, ?_, ?_⟩⟩
  · exact (congrArg (fun s => (decode s).run) htail).trans (decode_encoded e.2)
  · change (HashmapGC.insert query (siphash64 e.1) e.1 e.2 0).map Except.ok = _
    rw [h]
    rfl

/-- Items with different hashes are set one after the other. -/
theorem foldlM_decodeItem {L : List (Str × Str)} {query : HashmapGC Str Str} {m : OrderedMap UInt64 (Str × Str)}
    (hm : query.Refines m) (hfilling : query.Filling)
    (hroom : query.nodes.length + L.length ≤ inlineHashmapArraySize + HashmapGC.capacity)
    (hnodup : (m.keys ++ L.map fun e => siphash64 e.1).Nodup) :
    ∃ query' m', ((L.map item).foldlM (decodeItem siphash64) query).run = some (.ok query') ∧
      query'.Refines m' ∧ m'.entries = m.entries ++ entriesOf siphash64 L := by
  induction L generalizing query m with
  | nil => exact ⟨query, m, rfl, hm, (List.append_nil _).symm⟩
  | cons e L ih =>
    rw [List.length_cons] at hroom
    obtain ⟨next, hnext⟩ := Option.isSome_iff_exists.mp
      (hfilling.insert_isSome (by omega) (siphash64 e.1) e.1 e.2)
    have hfresh : siphash64 e.1 ∉ m.keys := fun hmem =>
      (List.nodup_append.mp hnodup).2.2 _ hmem _ List.mem_cons_self rfl
    have hinsert := (hm.insert hnext).1
    have hentries : (HashmapGC.specInsert m (siphash64 e.1) e.1 e.2).entries =
        m.entries ++ [(siphash64 e.1, e.1, e.2)] := by
      have hnone : m.lookup (siphash64 e.1) = none := by
        rw [← Option.not_isSome_iff_eq_none, OrderedMap.lookup_isSome]
        exact hfresh
      rw [HashmapGC.specInsert, hnone, OrderedMap.entries_insert_of_not_mem hfresh]
      rfl
    have hkeys : (HashmapGC.specInsert m (siphash64 e.1) e.1 e.2).keys = m.keys ++ [siphash64 e.1] := by
      rw [OrderedMap.keys, hentries, List.map_append, OrderedMap.keys]
      rfl
    have hcount : next.nodes.length = query.nodes.length + 1 := by
      have hbefore := congrArg List.length hm.entries
      have hafter := congrArg List.length hinsert.entries
      rw [List.length_map, (HashmapGC.toArray_perm _).length_eq] at hbefore hafter
      rw [hentries, List.length_append, List.length_singleton] at hafter
      omega
    obtain ⟨query', m', hrun, hm', hentries'⟩ := ih hinsert (hfilling.insert hm.wf hnext) (by omega)
      (by rw [hkeys, List.append_assoc, List.singleton_append]; exact hnodup)
    refine ⟨query', m', ?_, hm', ?_⟩
    · rw [List.map_cons, List.foldlM_cons]
      exact run_bind_eq_ok.mpr ⟨next, decodeItem_item hnext, hrun⟩
    · rw [hentries', hentries, List.append_assoc]
      rfl

end

/-- The dictionaries with strings for keys and values that operations have made. -/
inductive Built : HashmapGC Str Str → Prop
  | create : Built HashmapGC.create
  | setitem {d d' : HashmapGC Str Str} {key value : Str} :
    Built d → d.insert (siphash64 key) key value 0 = some d' → Built d'
  | delitem {d : HashmapGC Str Str} {key : Str} : Built d → Built (d.remove (siphash64 key)).2

/-- A dictionary from strings to strings. -/
abbrev StringDictionary := {d : HashmapGC Str Str // Built siphash64 d}

/-- The entries of a dictionary in their order. -/
def entries (d : HashmapGC Str Str) : List (Str × Str) := d.toArray.map fun n => (n.key, n.val)

variable {siphash64}

theorem Built.roomy {d : HashmapGC Str Str} (h : Built siphash64 d) : d.Roomy := by
  induction h with
  | create => exact HashmapGC.Roomy.create
  | setitem _ hset ih => exact ih.insert hset
  | delitem _ ih => exact ih.remove _

/-- The nodes are under the hashes of their keys. -/
theorem Built.hash_eq {d : HashmapGC Str Str} (h : Built siphash64 d) :
    ∀ n ∈ d.nodes, n.hash = siphash64 n.key := by
  induction h with
  | create => exact fun n hn => absurd hn List.not_mem_nil
  | @setitem d d' key value hd hset ih =>
    have hins := hset
    rw [HashmapGC.insert, if_pos rfl] at hins
    intro n hn
    rcases (HashmapGC.insertOrdered_spec hd.roomy.wf.succ_order.shaped hins).nodes with ⟨-, hp⟩ | ⟨-, hp⟩
    · obtain ⟨n₀, hn₀, rfl⟩ := List.mem_map.mp (hp.mem_iff.mp hn)
      rw [HashmapGC.setVal_hash, HashmapGC.setVal]
      split
      · exact ih n₀ hn₀
      · exact ih n₀ hn₀
    · rcases List.mem_cons.mp (hp.mem_iff.mp hn) with rfl | hn
      · rfl
      · exact ih n hn
  | delitem hd ih =>
    intro n hn
    rw [hd.roomy.wf.shaped.remove_nodes] at hn
    exact ih n (List.mem_filter.mp hn).1

theorem queryStr_eq (d : HashmapGC Str Str) :
    (queryStr d).run = some (.ok ([ampersand].intercalate ((entries d).map item))) := by
  have hitems : (d.toArray.mapM fun query => do
      return (← encode query.key) ++ [equals] ++ (← encode query.val) : ExceptT ArErr Option (List Str)).run =
        some (.ok (d.toArray.map fun query => item (query.key, query.val))) :=
    mapM_eq_ok fun query _ => run_bind_eq_ok.mpr ⟨_, encode_eq query.key,
      run_bind_eq_ok.mpr ⟨_, encode_eq query.val, rfl⟩⟩
  refine run_bind_eq_ok.mpr ⟨_, hitems, ?_⟩
  rw [entries, List.map_map]
  rfl

/-- A query decoded is the dictionary it was made from. -/
theorem decodeURLQuery_entries (q : StringDictionary siphash64) :
    ∃ r, (decodeURLQuery siphash64 ([ampersand].intercalate ((entries q.1).map item))).run = some (.ok r) ∧
      entries r = entries q.1 := by
  obtain ⟨d, hd⟩ := q
  obtain ⟨m, hm⟩ := hd.roomy.wf.refines
  have hhashes : (entries d).map (fun e => siphash64 e.1) = m.keys := by
    rw [hm.keys, entries, List.map_map]
    exact List.map_congr_left fun n hn => (hd.hash_eq n ((HashmapGC.toArray_perm d).mem_iff.mp hn)).symm
  have hlength : (entries d).length = d.nodes.length := by
    rw [entries, List.length_map, (HashmapGC.toArray_perm d).length_eq]
  have hback : ∀ {r : HashmapGC Str Str} {m' : OrderedMap UInt64 (Str × Str)}, r.Refines m' →
      entries r = m'.entries.map Prod.snd := fun hr => by
    rw [hr.entries, List.map_map]
    rfl
  obtain ⟨r, m', hrun, hr, hentries⟩ := foldlM_decodeItem (L := entries d) HashmapGC.Refines.create
    HashmapGC.Filling.create
    (by rw [hlength]; exact (Nat.zero_add _).trans_le hd.roomy.length_le)
    (by rw [hhashes]; exact m.nodup)
  refine ⟨r, ?_, ?_⟩
  · rw [decodeURLQuery]
    by_cases hnil : entries d = []
    · rw [hnil] at hrun ⊢
      exact hrun
    · have hitems : (entries d).map item ≠ [] := mt List.map_eq_nil_iff.mp hnil
      have hfield : ∀ f ∈ (entries d).map item, IsField ampersand f := fun f hf => by
        obtain ⟨e, -, rfl⟩ := List.mem_map.mp hf
        exact isField_item e
      obtain ⟨x, a, -, hx⟩ := exists_intercalate_eq_concat hitems hfield
      have hpos : ([ampersand].intercalate ((entries d).map item)).length ≠ 0 := by
        rw [hx, List.length_append, List.length_singleton]
        exact Nat.succ_ne_zero _
      rw [if_neg hpos, allPieces_intercalate hitems hfield]
      exact hrun
  · rw [hback hr, hentries, entriesOf]
    change ((entries d).map fun e => (siphash64 e.1, e.1, e.2)).map Prod.snd = _
    rw [List.map_map]
    exact List.map_id _

/-- What is encoded is decoded again and has no separator of a query in it, and so a dictionary is a query and
back, in its order. -/
theorem url_codec (siphash64 : List UInt8 → UInt64) :
    (∀ s : Str, ∃ e, (encode s).run = some (.ok e) ∧ (decode e).run = some (.ok s) ∧ Escaped e ∧
      ampersand ∉ e ∧ equals ∉ e) ∧
      ∀ q : StringDictionary siphash64, ∃ text r, (queryStr q.1).run = some (.ok text) ∧
        (decodeURLQuery siphash64 text).run = some (.ok r) ∧ entries r = entries q.1 := by
  constructor
  · intro s
    have hescaped := escaped_encoded s
    exact ⟨encoded s, encode_eq s, decode_encoded s, hescaped, hescaped.not_mem⟩
  · intro q
    obtain ⟨r, hr, hentries⟩ := decodeURLQuery_entries q
    exact ⟨_, r, queryStr_eq q.1, hr, hentries⟩

end Url

end Chloride
