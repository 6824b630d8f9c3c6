import Mathlib.Data.Nat.Digits.Defs
import Cmogstored.HeadNumbers
import Cmogstored.HttpGet
import Cmogstored.RequestLine
import Cmogstored.Script

/-! Answers to a `Range`: what a byte range of RFC 2616 selects of a file, and what `http_get_resp_hdr`
makes of the two numbers the parser left. A bound that the header leaves out is negative there. -/

namespace Cmogstored

open List Prog

/-! ### Byte ranges -/

/-- The value of a `Range` header: `-`, `M-`, `M-N` or `-N`. -/
inductive ByteRange where
  | missing
  | startingAt (first : Nat)
  | between (first last : Nat)
  | suffix (length : Nat)
  deriving DecidableEq, Repr

namespace ByteRange

/-- `range_beg` -/
def beg : ByteRange → Int
  | missing => -1
  | startingAt first => first
  | between first _ => first
  | suffix _ => -1

/-- `range_end` -/
def end_ : ByteRange → Int
  | missing => -1
  | startingAt _ => -1
  | between _ last => last
  | suffix length => length

/-- The first and the last byte that are selected. A suffix longer than the file selects nothing here. -/
def select (size : Nat) : ByteRange → Option (Nat × Nat)
  | missing => none
  | startingAt first => if first < size then some (first, size - 1) else none
  | between first last => if first ≤ last ∧ first < size then some (first, min last (size - 1)) else none
  | suffix length => if 0 < length ∧ length ≤ size then some (size - length, size - 1) else none

/-- A suffix longer than the file. -/
def isOverlong (size : Nat) : ByteRange → Bool
  | suffix length => size < length
  | _ => false

/-- `-0` asks for nothing. -/
def AsksForSome : ByteRange → Prop
  | suffix length => 0 < length
  | _ => True

/-- The bounds fit `off_t`. -/
def Fits (range : ByteRange) : Prop := range.beg < 2 ^ 63 ∧ range.end_ < 2 ^ 63

theorem select_lt {size first last : Nat} {range : ByteRange} (h : range.select size = some (first, last)) :
    first ≤ last ∧ last < size := by
  cases range with
  | missing => cases h
  | startingAt m =>
    simp only [select, Option.ite_none_right_eq_some, Option.some.injEq, Prod.mk.injEq] at h
    omega
  | between m n =>
    simp only [select, Option.ite_none_right_eq_some, Option.some.injEq, Prod.mk.injEq] at h
    omega
  | suffix n =>
    simp only [select, Option.ite_none_right_eq_some, Option.some.injEq, Prod.mk.injEq] at h
    omega

end ByteRange

/-- How a range is answered: with a part of the file, with the whole file, or not at all. -/
inductive RangeAnswer where
  | part (first last : Nat)
  | whole
  | refused
  deriving DecidableEq, Repr

def answerTo (size : Nat) (range : ByteRange) : RangeAnswer :=
  match range.select size with
  | some (first, last) => .part first last
  | none => if range.isOverlong size then .whole else .refused

/-! ### The decision -/

section Decision

variable {http : Http} {size : Nat}

theorem rangeReply_missing (hrange : http.hasRange = true) (hbeg : http.rangeBeg = -1) (hend : http.rangeEnd = -1) :
    rangeReply http size = some .bad := by
  simp [rangeReply, hrange, hbeg, hend]

theorem rangeReply_startingAt {first : Nat} (hrange : http.hasRange = true) (hbeg : http.rangeBeg = first)
    (hend : http.rangeEnd = -1) :
    rangeReply http size =
      some (if first < size then .partialContent first (size - first) (-1) else .bad) := by
  simp only [rangeReply, hrange, hbeg, hend]
  by_cases hlt : first < size
  · rw [if_neg (by decide), if_neg (by omega), if_neg (by omega), if_neg (by omega), if_pos (by decide),
      if_pos (by omega), if_pos (by omega), if_pos hlt]
  · rw [if_neg (by decide), if_neg (by omega), if_pos (by omega), if_neg hlt]

theorem rangeReply_between {first last : Nat} (hrange : http.hasRange = true) (hbeg : http.rangeBeg = first)
    (hend : http.rangeEnd = last) :
    rangeReply http size =
      some (if first ≤ last ∧ first < size then
        .partialContent first (min (last : Int) (size - 1) + 1 - first) (min last (size - 1)) else .bad) := by
  simp only [rangeReply, hrange, hbeg, hend]
  by_cases hselects : first ≤ last ∧ first < size
  · have hmin : (if (last : Int) ≥ size then (size : Int) - 1 else last) = min (last : Int) (size - 1) := by
      split <;> omega
    rw [if_neg (by decide), if_neg (by omega), if_neg (by omega), if_neg (by omega), if_neg (by omega),
      if_neg (by omega), if_pos (by omega), hmin, if_pos (by omega), if_pos hselects]
  · rw [if_neg (by decide), if_neg (by omega), if_neg hselects]
    by_cases hbehind : (first : Int) ≥ size
    · rw [if_pos hbehind]
    · rw [if_neg hbehind, if_pos (by omega)]

/-- The last `length` bytes. No byte at all is one assertion too few. -/
theorem rangeReply_suffix {length : Nat} (hrange : http.hasRange = true) (hbeg : http.rangeBeg = -1)
    (hend : http.rangeEnd = length) :
    rangeReply http size =
      if size < length then some .ok
      else if length = 0 then none
      else some (.partialContent (size - length) length length) := by
  simp only [rangeReply, hrange, hbeg, hend]
  rw [if_neg (by decide), if_neg (by omega), if_neg (by omega), if_neg (by omega), if_neg (by omega),
    if_pos (by decide), if_pos (by omega)]
  by_cases hlong : size < length
  · rw [if_pos (by omega), if_pos hlong]
  · rw [if_neg (by omega), if_neg hlong]
    have hcount : (size : Int) - (size - length) = length := by omega
    by_cases hzero : length = 0
    · rw [if_neg (by omega), if_pos hzero]
    · rw [if_pos (by omega), if_neg hzero, hcount]

/-- The decision of `http_get_resp_hdr` for an answer. -/
inductive RangeAnswer.Decided : RangeAnswer → RangeReply → Prop where
  | part {first last : Nat} {offset count rangeEnd : Int} (hoffset : offset = first)
      (hcount : count = last - first + 1) : Decided (part first last) (.partialContent offset count rangeEnd)
  | whole : Decided whole .ok
  | refused : Decided refused .bad

theorem answerTo_of_select {range : ByteRange} {first last : Nat} (h : range.select size = some (first, last)) :
    answerTo size range = .part first last := by
  rw [answerTo, h]

theorem answerTo_of_none {range : ByteRange} (h : range.select size = none) (hshort : range.isOverlong size = false) :
    answerTo size range = .refused := by
  rw [answerTo, h]
  simp only [hshort, Bool.false_eq_true, if_false]

/-- **A range that asks for something is decided.** -/
theorem rangeReply_decided {range : ByteRange} (hrange : http.hasRange = true) (hbeg : http.rangeBeg = range.beg)
    (hend : http.rangeEnd = range.end_) (hsome : range.AsksForSome) :
    ∃ reply, rangeReply http size = some reply ∧ (answerTo size range).Decided reply := by
  cases range with
  | missing => exact ⟨_, rangeReply_missing hrange hbeg hend, .refused⟩
  | startingAt first =>
    refine ⟨_, rangeReply_startingAt hrange hbeg hend, ?_⟩
    by_cases hlt : first < size
    · have hselect : (ByteRange.startingAt first).select size = some (first, size - 1) := if_pos hlt
      rw [if_pos hlt, answerTo_of_select hselect]
      exact .part rfl (by omega)
    · have hselect : (ByteRange.startingAt first).select size = none := if_neg hlt
      rw [if_neg hlt, answerTo_of_none hselect rfl]
      exact .refused
  | between first last =>
    refine ⟨_, rangeReply_between hrange hbeg hend, ?_⟩
    by_cases hselects : first ≤ last ∧ first < size
    · have hselect : (ByteRange.between first last).select size = some (first, min last (size - 1)) :=
        if_pos hselects
      rw [if_pos hselects, answerTo_of_select hselect]
      exact .part rfl (by omega)
    · have hselect : (ByteRange.between first last).select size = none := if_neg hselects
      rw [if_neg hselects, answerTo_of_none hselect rfl]
      exact .refused
  | suffix length =>
    have hpos : 0 < length := hsome
    have hreply : rangeReply http size = _ := rangeReply_suffix hrange hbeg hend
    refine ⟨_, hreply.trans (by rw [if_neg (Nat.ne_of_gt hpos), ← apply_ite some]), ?_⟩
    by_cases hlong : size < length
    · have hselect : (ByteRange.suffix length).select size = none := if_neg (by omega)
      rw [if_pos hlong, answerTo, hselect]
      simp only [ByteRange.isOverlong, hlong, decide_true, if_true]
      exact .whole
    · have hselect : (ByteRange.suffix length).select size = some (size - length, size - 1) := if_pos (by omega)
      rw [if_neg hlong, answerTo_of_select hselect]
      exact .part (by omega) (by omega)

end Decision

/-! ### Arithmetic -/

/-- What `http_get_resp_hdr` computes on the way to its reply and for the head. The `range_end + 1` of `M-N` is
`offset + count`. -/
def rangeArithmetic (http : Http) (size : Int) : List Int :=
  match rangeReply http size with
  | some (.partialContent offset count rangeEnd) =>
    [offset, count, rangeEnd, offset + count, offset + count - 1]
  | some .ok => [size - http.rangeEnd]
  | _ => []

/-- A value that `long long` holds. -/
def FitsLong (value : Int) : Prop := -2 ^ 63 ≤ value ∧ value < 2 ^ 63

theorem rangeArithmetic_fits {http : Http} {size : Int} (hrange : http.hasRange = true) (hend : -1 ≤ http.rangeEnd)
    (hfits : http.rangeEnd < 2 ^ 63) (hzero : 0 ≤ size) (hsize : size < 2 ^ 63) :
    ∀ value ∈ rangeArithmetic http size, FitsLong value := by
  intro value hvalue
  unfold rangeArithmetic at hvalue
  unfold FitsLong
  split at hvalue
  next offset count rangeEnd hreply =>
    have hinside := rangeReply_partial hreply
    simp only [mem_cons, not_mem_nil, or_false] at hvalue
    omega
  next hreply =>
    have hlong := rangeReply_ok hrange hreply
    rw [mem_singleton] at hvalue
    omega
  next => cases hvalue

/-! ### The head -/

theorem decimal_length_le {n : Int} (h : n < 2 ^ 63) : (decimal n).length ≤ 19 := by
  rw [decimal, ascii, length_map, String.length_toList]
  exact Nat.repr_length _ 19 (by decide) (by omega)

theorem connectionText_length_le (keepAlive : Bool) : (connectionText keepAlive).length ≤ 10 := by
  cases keepAlive <;> decide

/-- No number in the head of the answer is larger than the file. -/
def RangeReply.Small (size : Int) : RangeReply → Prop
  | .partialContent offset count _ => 0 < count ∧ 0 ≤ offset ∧ offset + count ≤ size
  | _ => True

theorem getHead_length {reply : RangeReply} {size : Int} (hsize : size < 2 ^ 63) (hsmall : reply.Small size)
    (now modified : HttpDate) (keepAlive : Bool) :
    0 < (getHead reply now modified size keepAlive).length ∧
      (getHead reply now modified size keepAlive).length < fsbufSize := by
  have hdate := now.property
  have hmodified := modified.property
  have hconnection := connectionText_length_le keepAlive
  have hdecimal := decimal_length_le hsize
  cases reply with
  | ok =>
    simp only [getHead, length_append, hdate, hmodified, fsbufSize]
    simp [ascii]
    omega
  | partialContent offset count rangeEnd =>
    obtain ⟨hcount, hoffset, hend⟩ := hsmall
    have hlast : (decimal (offset + count - 1)).length ≤ 19 := decimal_length_le (by omega)
    have hcount : (decimal count).length ≤ 19 := decimal_length_le (by omega)
    have hoffset : (decimal offset).length ≤ 19 := decimal_length_le (by omega)
    simp only [getHead, length_append, hdate, hmodified, fsbufSize]
    simp [ascii]
    omega
  | bad =>
    simp only [getHead, length_append, hdate, fsbufSize]
    simp [ascii]
    omega

/-- What an answer says in its head. -/
def RangeAnswer.Says (size : Nat) (head : Bytes) : RangeAnswer → Prop
  | .part first last =>
    ascii "HTTP/1.1 206 Partial Content\r\nStatus: 206 Partial Content\r\nDate: " <+: head ∧
    ascii "\r\nContent-Length: " ++ decimal (last - first + 1) ++
      ascii "\r\nContent-Type: application/octet-stream\r\nContent-Range: bytes " ++
      decimal first ++ ascii "-" ++ decimal last ++ ascii "/" ++ decimal size ++
      ascii "\r\nConnection: " <:+: head
  | .whole => ascii "HTTP/1.1 200 OK\r\nStatus: 200 OK\r\nDate: " <+: head ∧
      ascii "\r\nContent-Length: " ++ decimal size ++
        ascii "\r\nContent-Type: application/octet-stream\r\nAccept-Ranges: bytes\r\nConnection: " <:+: head
  | .refused => ascii "HTTP/1.1 416 Requested Range Not Satisfiable\r\n" <+: head ∧
      ascii "\r\nContent-Length: 0\r\nContent-Type: text/plain\r\nContent-Range: bytes */" ++ decimal size ++
        ascii "\r\nConnection: " <:+: head

theorem RangeAnswer.Decided.says {answer : RangeAnswer} {reply : RangeReply} (h : answer.Decided reply)
    (now modified : HttpDate) (size : Nat) (keepAlive : Bool) :
    answer.Says size (getHead reply now modified size keepAlive) := by
  cases h with
  | @part first last offset count rangeEnd hoffset hcount =>
    subst hoffset hcount
    have hlast : (first : Int) + (last - first + 1) - 1 = last := by omega
    simp only [Says, getHead, hlast, append_assoc]
    refine ⟨prefix_append _ _, ?_⟩
    exact ⟨ascii "HTTP/1.1 206 Partial Content\r\nStatus: 206 Partial Content\r\nDate: " ++ now.val ++
      ascii "\r\nLast-Modified: " ++ modified.val, connectionText keepAlive ++ ascii "\r\n\r\n",
      by simp only [append_assoc]⟩
  | whole =>
    simp only [Says, getHead, append_assoc]
    refine ⟨prefix_append _ _, ?_⟩
    exact ⟨ascii "HTTP/1.1 200 OK\r\nStatus: 200 OK\r\nDate: " ++ now.val ++
      ascii "\r\nLast-Modified: " ++ modified.val,
      connectionText keepAlive ++ ascii "\r\n\r\n", by simp only [append_assoc]⟩
  | refused =>
    simp only [Says, getHead, append_assoc]
    refine ⟨prefix_append _ _, ?_⟩
    exact ⟨ascii "HTTP/1.1 416 Requested Range Not Satisfiable\r\n" ++
      (ascii "Status: 416 Requested Range Not Satisfiable\r\nDate: " ++ now.val),
      connectionText keepAlive ++ ascii "\r\n\r\n", by simp only [append_assoc]⟩

/-! ### Answering -/

/-- What is left to do when the head of the answer is known. -/
def sendAnswer (ctx : Ctx) (fuel : Nat) (http : Http) (status : Status) (head : Bytes) (offset count : Int) :
    Io Http := do
  require (http.wbuf = .null)
  let count := if http.httpMethod = .head then 0 else count
  note (.response status http.persistent head offset count.toNat)
  let wbuf ← mogTrysend ctx fuel head count
  pure { http with wbuf := wbuf }

theorem answerTo_part {size first last : Nat} {range : ByteRange} (h : answerTo size range = .part first last) :
    first ≤ last ∧ last < size := by
  unfold answerTo at h
  split at h
  · rename_i hselect
    cases h
    exact ByteRange.select_lt hselect
  · split at h <;> cases h

theorem RangeAnswer.Decided.small {size : Nat} {range : ByteRange} {answer : RangeAnswer} {reply : RangeReply}
    (hanswer : answerTo size range = answer) (h : answer.Decided reply) : reply.Small size := by
  cases h with
  | part hoffset hcount =>
    obtain ⟨hle, hlt⟩ := answerTo_part hanswer
    refine ⟨?_, ?_, ?_⟩
    · omega
    · omega
    · omega
  | whole => trivial
  | refused => trivial

/-- Once the answer is known its head is sent. -/
theorem httpGetRespHdr_eq (ctx : Ctx) (fuel : Nat) {http : Http} {size : Int} (mtime : Int) {reply : RangeReply}
    (hreply : rangeReply http size = some reply) (hsize : size < 2 ^ 63) (hsmall : reply.Small size) :
    httpGetRespHdr ctx fuel http size mtime = (do
      let now ← sys .now
      let http ← applyRange http reply
      sendAnswer ctx fuel http reply.status (getHead reply now (ctx.httpDate mtime) size http.persistent)
        reply.offset (reply.count size)) := by
  unfold httpGetRespHdr
  simp only [hreply, ask_bind, call.injEq, heq_eq_eq, true_and]
  funext now
  congr 1
  funext http'
  obtain ⟨hpos, hlt⟩ := getHead_length hsize hsmall now (ctx.httpDate mtime) http'.persistent
  simp only [hpos, hlt, decide_true, Bool.and_self, require_true, ret_bind]
  rfl

namespace RangeAnswer

def status : RangeAnswer → Status
  | part _ _ => .partialContent
  | whole => .ok
  | refused => .rangeNotSatisfiable

/-- Where in the file the body starts. -/
def offset : RangeAnswer → Int
  | part first _ => first
  | whole => 0
  | refused => 0

/-- The length of the body. -/
def count (size : Nat) : RangeAnswer → Int
  | part first last => last - first + 1
  | whole => size
  | refused => 0

/-- The file is closed if nothing of it is asked for. -/
def closing (http : Http) : RangeAnswer → Io Unit
  | refused =>
    match http.forward with
    | some file => mogFileClose file
    | none => pure ()
  | _ => pure ()

/-- The client as the answer leaves it: the window of its file is the part that is asked for. -/
def leaves (http : Http) : RangeAnswer → Http
  | part first last =>
    { http with forward := http.forward.map fun file => { file with foff := first, fsize := last + 1 } }
  | whole => http
  | refused => { http with forward := none }

variable {answer : RangeAnswer} {reply : RangeReply} (h : answer.Decided reply)

include h

theorem Decided.status_eq : reply.status = answer.status := by
  cases h <;> rfl

theorem Decided.offset_eq : reply.offset = answer.offset := by
  cases h with
  | part hoffset hcount => exact hoffset
  | whole => rfl
  | refused => rfl

theorem Decided.count_eq {size : Nat} : reply.count size = answer.count size := by
  cases h with
  | part hoffset hcount => exact hcount
  | whole => rfl
  | refused => rfl

end RangeAnswer

/-- A GET whose file is open, or a HEAD. -/
def RangeServed (http : Http) : Prop :=
  (http.httpMethod = .get ∧ ∃ file, http.forward = some file) ∨ (http.httpMethod = .head ∧ http.forward = none)

/-- The range checks and what follows from them, in the words of RFC 2616. -/
structure RangeAnswered (ctx : Ctx) (fuel : Nat) (http : Http) (size : Nat) (mtime : Int) (answer : RangeAnswer) :
    Prop where
  /-- what is sent, and what becomes of the file -/
  program : ∃ (head : HttpDate → Bytes) (rangeEnd : Int), (∀ now, answer.Says size (head now)) ∧
    httpGetRespHdr ctx fuel http size mtime = (do
      let now ← sys .now
      answer.closing http
      sendAnswer ctx fuel { answer.leaves http with rangeEnd := rangeEnd } answer.status (head now) answer.offset
        (answer.count size))
  /-- a part is not empty and lies in the file -/
  inside : ∀ first last, answer = .part first last → first ≤ last ∧ last < size
  /-- nothing that is computed overflows -/
  fits : ∀ value ∈ rangeArithmetic http size, FitsLong value

theorem applyRange_decided {http : Http} {answer : RangeAnswer} {reply : RangeReply} (h : answer.Decided reply)
    (hserved : RangeServed http) : ∃ rangeEnd, ∀ f : Http → Io Http,
      (applyRange http reply >>= f) = (do answer.closing http; f { answer.leaves http with rangeEnd := rangeEnd }) := by
  cases h with
  | @part first last offset count rangeEnd hoffset hcount =>
    subst hoffset hcount
    have hend : (first : Int) + (last - first + 1) = last + 1 := by omega
    refine ⟨rangeEnd, fun f => ?_⟩
    simp only [applyRange, hend]
    rfl
  | whole => exact ⟨http.rangeEnd, fun f => rfl⟩
  | refused =>
    refine ⟨http.rangeEnd, fun f => ?_⟩
    rcases hserved with ⟨-, file, hfile⟩ | ⟨hhead, hnone⟩
    · simp only [applyRange, RangeAnswer.closing, hfile]
      rfl
    · have hsame : { RangeAnswer.refused.leaves http with rangeEnd := http.rangeEnd } = http := by
        rw [RangeAnswer.leaves, ← hnone]
      simp only [applyRange, RangeAnswer.closing, hnone, hhead, hsame]
      rfl

theorem ByteRange.neg_one_le_end (range : ByteRange) : -1 ≤ range.end_ := by
  cases range with
  | missing => exact Int.le_refl _
  | startingAt first => exact Int.le_refl _
  | between first last =>
    show (-1 : Int) ≤ last
    omega
  | suffix length =>
    show (-1 : Int) ≤ length
    omega

/-- **Ranges are answered as they should be.** -/
theorem range_answered (ctx : Ctx) (fuel : Nat) {http : Http} {size : Nat} (mtime : Int) {range : ByteRange}
    (hsize : size < 2 ^ 63) (hfits : range.Fits) (hsome : range.AsksForSome) (hrange : http.hasRange = true)
    (hbeg : http.rangeBeg = range.beg) (hend : http.rangeEnd = range.end_) (hserved : RangeServed http) :
    RangeAnswered ctx fuel http size mtime (answerTo size range) := by
  have hdecided : ∃ reply, rangeReply http size = some reply ∧ (answerTo size range).Decided reply :=
    rangeReply_decided hrange hbeg hend hsome
  obtain ⟨reply, hreply, hdecided⟩ := hdecided
  obtain ⟨rangeEnd, happly⟩ := applyRange_decided hdecided hserved
  have hlong : (size : Int) < 2 ^ 63 := by exact_mod_cast hsize
  constructor
  · have hprogram := httpGetRespHdr_eq ctx fuel mtime hreply hlong (hdecided.small rfl)
    simp only [happly] at hprogram
    refine ⟨fun now => getHead reply now (ctx.httpDate mtime) size ((answerTo size range).leaves http).persistent,
      rangeEnd, fun now => hdecided.says now _ size _, ?_⟩
    rw [hprogram]
    rw [hdecided.status_eq, hdecided.offset_eq, hdecided.count_eq]
  · intro first last hpart
    exact answerTo_part hpart
  · exact rangeArithmetic_fits hrange (hend ▸ range.neg_one_le_end) (hend ▸ hfits.2) (Int.natCast_nonneg size) hlong

/-- A HEAD for a range that reaches behind the file. -/
def rangedHead : Http :=
  { mogHttpInit with httpMethod := .head, hasRange := true, rangeBeg := 2, rangeEnd := 9 }

theorem range_answered_head :
    answerTo 4 (.between 2 9) = .part 2 3 ∧
    RangeAnswered plainCtx 1 rangedHead 4 0 (answerTo 4 (.between 2 9)) :=
  ⟨by decide, range_answered plainCtx 1 0 (by decide) ⟨by decide, by decide⟩ trivial rfl rfl rfl (Or.inr ⟨rfl, rfl⟩)⟩

/-! ### Assertions -/

/-- A bound that the parser leaves is missing or a number. -/
structure RangeBounds (fields : Fields) : Prop where
  beg : -1 ≤ fields.rangeBeg
  end_ : -1 ≤ fields.rangeEnd

theorem headStep_rangeBounds {buf : Bytes} {fields : Fields} {pos : Nat} {c : Byte} (h : RangeBounds fields) :
    (headStep buf fields pos c).Sat (fun fields' _ => RangeBounds fields') fun fields' _ _ => RangeBounds fields' := by
  obtain ⟨hbeg, hend⟩ := h
  have hsome : ∀ {len : Int}, -1 ≤ if len < 0 then 0 else len := by
    intro len
    split <;> omega
  unfold headStep
  rcases httpNext fields.cs c with ⟨act, cs⟩
  cases act with
  | contentRangeBeg =>
    dsimp only
    split
    · exact ⟨Int.le_trans hbeg (le_of_lengthIncr ‹_›), hend⟩
    · exact ⟨Int.le_refl _, hend⟩
  | contentRangeEnd =>
    dsimp only
    split
    · exact ⟨hbeg, Int.le_trans hend (le_of_lengthIncr ‹_›)⟩
    · exact ⟨hbeg, Int.le_refl _⟩
  | rangeInit => exact ⟨Int.le_refl _, Int.le_refl _⟩
  | rangeBeg =>
    dsimp only
    split
    · exact ⟨Int.le_trans hsome (le_of_lengthIncr ‹_›), hend⟩
    · exact ⟨Int.le_refl _, hend⟩
  | rangeEnd =>
    dsimp only
    split
    · exact ⟨hbeg, Int.le_trans hsome (le_of_lengthIncr ‹_›)⟩
    · exact ⟨hbeg, Int.le_refl _⟩
  | _ =>
    dsimp only
    repeat' split
    all_goals first
      | exact ⟨hbeg, hend⟩
      | trivial

/-- **The bounds in an accepted head.** -/
theorem headScan_rangeBounds {buf : Bytes} {fields : Fields} {pos : Nat} {why : Halt}
    (h : Scan.Scans headStep buf .init 0 (.halted fields pos why)) : RangeBounds fields := by
  have hsat : (Scan.Outcome.halted fields pos why).Sat (fun fields _ => RangeBounds fields)
      fun fields _ _ => RangeBounds fields :=
    h.sat (fun _ _ _ hbounds _ => headStep_rangeBounds hbounds) ⟨by decide, by decide⟩
  exact hsat

theorem exists_byteRange {beg end_ : Int} (hbeg : -1 ≤ beg) (hend : -1 ≤ end_) :
    ∃ range : ByteRange, beg = range.beg ∧ end_ = range.end_ := by
  by_cases hnobeg : beg = -1
  · by_cases hnoend : end_ = -1
    · exact ⟨.missing, hnobeg, hnoend⟩
    · exact ⟨.suffix end_.toNat, hnobeg, (Int.toNat_of_nonneg (by omega)).symm⟩
  · by_cases hnoend : end_ = -1
    · exact ⟨.startingAt beg.toNat, (Int.toNat_of_nonneg (by omega)).symm, hnoend⟩
    · exact ⟨.between beg.toNat end_.toNat, (Int.toNat_of_nonneg (by omega)).symm,
        (Int.toNat_of_nonneg (by omega)).symm⟩

section Asserts

variable {ctx : Ctx} {fuel : Nat} {http : Http} {range : ByteRange}

/-- Whether a range can be answered: it asks for something, and is not refused where there is no file to be
closed. -/
def ByteRange.Safe (range : ByteRange) (method : Method) (path : Bytes) : Prop :=
  range ≠ .suffix 0 ∧ (path = [47] → method ≠ .head → ∃ length, range = .suffix length)

theorem ByteRange.asksForSome_iff {range : ByteRange} : range.AsksForSome ↔ range ≠ .suffix 0 := by
  cases range with
  | suffix length =>
    rw [AsksForSome, ne_eq, suffix.injEq]
    exact Nat.pos_iff_ne_zero
  | _ => simp [AsksForSome]

theorem sendAnswer_sure (hwbuf : http.wbuf = .null) (status : Status) (head : Bytes) (offset count : Int) :
    (sendAnswer ctx fuel http status head offset count).Sure (fun _ => True) fun _ => True := by
  refine sure_require_bind (decide_eq_true hwbuf) (sure_ask_bind trivial fun _ => ?_)
  exact (mogTrysend_sure (fun _ => trivial) (fun _ _ => trivial) ctx fuel head _).bind fun wbuf _ => trivial

theorem applyRange_sure {reply : RangeReply}
    (hserved : reply = .bad → http.httpMethod = .head ∨ ∃ file, http.forward = some file) :
    (applyRange http reply).Sure (fun _ => True) fun http' => http'.wbuf = http.wbuf := by
  cases reply with
  | ok => rfl
  | partialContent offset count rangeEnd => rfl
  | bad =>
    unfold applyRange
    dsimp only
    split
    · exact sure_ask_bind trivial fun _ => rfl
    · rename_i hnone
      refine sure_require_bind (decide_eq_true ?_) rfl
      rcases hserved rfl with hhead | ⟨file, hfile⟩
      · exact hhead
      · rw [hnone] at hfile
        cases hfile

theorem httpGetRespHdr_sure {size : Nat} (mtime : Int) (hsize : size < 2 ^ 63) (hrange : http.hasRange = true)
    (hbeg : http.rangeBeg = range.beg) (hend : http.rangeEnd = range.end_) (hsome : range.AsksForSome)
    (hwbuf : http.wbuf = .null)
    (hserved : answerTo size range = .refused → http.httpMethod = .head ∨ ∃ file, http.forward = some file) :
    (httpGetRespHdr ctx fuel http size mtime).Sure (fun _ => True) fun _ => True := by
  have hdecided : ∃ reply, rangeReply http size = some reply ∧ (answerTo size range).Decided reply :=
    rangeReply_decided hrange hbeg hend hsome
  obtain ⟨reply, hreply, hdecided⟩ := hdecided
  have hlong : (size : Int) < 2 ^ 63 := by exact_mod_cast hsize
  rw [httpGetRespHdr_eq ctx fuel mtime hreply hlong (hdecided.small rfl)]
  refine sure_ask_bind trivial fun now => (applyRange_sure ?_).bind fun http' hsame => ?_
  · intro hbad
    apply hserved
    generalize answerTo size range = answer at hdecided
    subst hbad
    cases hdecided
    rfl
  · exact sendAnswer_sure (hsame.trans hwbuf) _ _ _ _

theorem mogHttpResp_sure (hwbuf : http.wbuf = .null) (status : Status) (alive : Bool) :
    (mogHttpResp fuel http status alive).Sure (fun _ => True) fun _ => True := by
  refine sure_ask_bind trivial fun date => sure_require_bind (decide_eq_true hwbuf) (sure_ask_bind trivial fun _ => ?_)
  exact (mogTrywritev_sure (fun _ => trivial) fuel _).bind fun wbuf _ => trivial

theorem getErr_sure (hwbuf : http.wbuf = .null) (errno : Errno) :
    (getErr fuel http errno).Sure (fun _ => True) fun _ => True := by
  unfold getErr
  split
  · exact mogHttpResp_sure hwbuf _ _
  · exact mogHttpResp_sure hwbuf _ _
  · exact mogHttpResp_sure hwbuf _ _

theorem mogFileOpenRead_sure (path : Bytes) : (mogFileOpenRead path).Sure (fun _ => True) fun _ => True := by
  have hretry : ∀ errno, (mogOpenExpireRetry errno).Sure (fun _ => True) fun _ => True := by
    intro errno
    unfold mogOpenExpireRetry
    split
    all_goals first
      | trivial
      | exact sure_ask_bind trivial fun _ => trivial
  have hopen : (openExpireRetry (sys (.openRead path))).Sure (fun _ => True) fun _ => True := by
    refine sure_ask_bind trivial fun answer => ?_
    cases answer with
    | ok fd => trivial
    | error errno =>
      refine (hretry errno).bind fun again _ => ?_
      dsimp only
      split
      · exact ⟨trivial, fun _ => trivial⟩
      · trivial
  refine hopen.bind fun answer _ => ?_
  cases answer <;> trivial

theorem headStat_sure (path : Bytes) (hrange : http.hasRange = true) (hbeg : http.rangeBeg = range.beg)
    (hend : http.rangeEnd = range.end_) (hsome : range.AsksForSome) (hwbuf : http.wbuf = .null)
    (hhead : http.httpMethod = .head) : (headStat ctx fuel http path).Sure (fun _ => True) fun _ => True := by
  refine sure_ask_bind trivial fun answer => ?_
  cases answer with
  | error errno => exact getErr_sure hwbuf errno
  | ok sb =>
    dsimp only
    split
    · exact httpGetRespHdr_sure sb.mtime sb.size.isLt hrange hbeg hend hsome hwbuf fun _ => Or.inl hhead
    · exact mogHttpResp_sure hwbuf _ _

theorem getFile_sure (path : Bytes) (hrange : http.hasRange = true) (hbeg : http.rangeBeg = range.beg)
    (hend : http.rangeEnd = range.end_) (hsome : range.AsksForSome) (hwbuf : http.wbuf = .null) :
    (getFile ctx fuel http path).Sure (fun _ => True) fun _ => True := by
  refine (mogFileOpenRead_sure path).bind fun answer _ => ?_
  cases answer with
  | error errno => exact getErr_sure hwbuf errno
  | ok file =>
    refine sure_ask_bind trivial fun answer => ?_
    cases answer with
    | error errno => exact sure_ask_bind trivial fun _ => getErr_sure hwbuf errno
    | ok sb =>
      dsimp only
      split
      · exact httpGetRespHdr_sure sb.mtime sb.size.isLt hrange hbeg hend hsome hwbuf fun _ => Or.inr ⟨_, rfl⟩
      · exact sure_ask_bind trivial fun _ => mogHttpResp_sure hwbuf _ _

/-! ### The runs that abort -/

/-- Some file. -/
def someStat : Stat := { size := ⟨0, Nat.two_pow_pos 63⟩, mtime := 0, isReg := true }

theorem httpGetRespHdr_suffixZero (size : Nat) (mtime : Int) (hrange : http.hasRange = true)
    (hbeg : http.rangeBeg = (ByteRange.suffix 0).beg) (hend : http.rangeEnd = (ByteRange.suffix 0).end_) :
    Runs (httpGetRespHdr ctx fuel http size mtime) [⟨.now, someDate⟩] .abort := by
  have hreply : rangeReply http size = none := by
    rw [rangeReply_suffix hrange hbeg hend, if_neg (Nat.not_lt_zero size), if_pos rfl]
  unfold httpGetRespHdr
  rw [hreply]
  exact .cons (.nil _)

theorem httpGetRespHdr_root (hrange : http.hasRange = true) (hbeg : http.rangeBeg = range.beg)
    (hend : http.rangeEnd = range.end_) (hsome : range.AsksForSome) (hrefused : answerTo 0 range = .refused)
    (hget : http.httpMethod ≠ .head) (hforward : http.forward = none) :
    Runs (httpGetRespHdr ctx fuel http 0 0) [⟨.now, someDate⟩] .abort := by
  have hdecided : ∃ reply, rangeReply http (0 : Nat) = some reply ∧ (answerTo 0 range).Decided reply :=
    rangeReply_decided hrange hbeg hend hsome
  obtain ⟨reply, hreply, hdecided⟩ := hdecided
  rw [hrefused] at hdecided
  cases hdecided
  have hreply : rangeReply http 0 = some .bad := hreply
  unfold httpGetRespHdr
  rw [hreply]
  have hrequire : decide (http.httpMethod = .head) = false := decide_eq_false hget
  simp only [applyRange, hforward, hrequire, require_false, abort_bind]
  exact .cons (.nil _)

/-! ### `mog_http_get_open` -/

theorem mogHttpGetOpen_eq {buf : Bytes} (htarget : TargetIn buf http.toFields)
    (hvalid : mogValidPath (requestPath http buf) = true) (hmethod : http.httpMethod ≠ .put)
    (hforward : http.forward = none) :
    mogHttpGetOpen ctx fuel http buf =
      if requestPath http buf = [47] then httpGetRespHdr ctx fuel http 0 0
      else if http.httpMethod = .head then headStat ctx fuel http (requestPath http buf)
      else getFile ctx fuel http (requestPath http buf) := by
  obtain ⟨chars, hpath, -⟩ := htarget.path
  have hpath : requestPath http buf = 47 :: chars := hpath
  have hroot : (47 :: chars : Bytes).length = 1 ↔ (47 :: chars : Bytes) = [47] := by simp
  have hlookup : mogHttpPath http buf = .ret (.ok (47 :: chars)) := by
    unfold mogHttpPath
    rw [decide_eq_true htarget.tip_lt, require_true, ret_bind]
    rw [requestPath] at hvalid hpath
    dsimp only
    rw [hvalid, decide_eq_false hmethod, hpath]
    rfl
  unfold mogHttpGetOpen
  rw [hlookup, ret_bind, hpath]
  simp only [hforward, decide_true, require_true, ret_bind, List.getElem?_cons_zero, beq_self_eq_true, hroot]

/-- Whatever the answers of the file system are, no assertion fails. -/
def NeverAborts (program : Io Http) : Prop := ∀ trace, ¬ Runs program trace .abort

theorem not_neverAborts {program : Io Http} {trace : Run} (h : Runs program trace .abort) : ¬ NeverAborts program :=
  fun hnever => hnever trace h

theorem getFile_suffixZero (path : Bytes) (hrange : http.hasRange = true)
    (hbeg : http.rangeBeg = (ByteRange.suffix 0).beg) (hend : http.rangeEnd = (ByteRange.suffix 0).end_) :
    Runs (getFile ctx fuel http path) [⟨.openRead path, .ok 0⟩, ⟨.fstat 0, .ok someStat⟩, ⟨.now, someDate⟩] .abort :=
  .cons (.cons (httpGetRespHdr_suffixZero 0 0 hrange hbeg hend))

/-- `-0` aborts, for any file. -/
theorem get_suffixZero_aborts {path : Bytes} (hrange : http.hasRange = true)
    (hbeg : http.rangeBeg = (ByteRange.suffix 0).beg) (hend : http.rangeEnd = (ByteRange.suffix 0).end_) :
    ¬ NeverAborts (if path = [47] then httpGetRespHdr ctx fuel http 0 0
      else if http.httpMethod = .head then headStat ctx fuel http path else getFile ctx fuel http path) := by
  split
  · exact not_neverAborts (httpGetRespHdr_suffixZero 0 0 hrange hbeg hend)
  · split
    · have hruns : Runs (headStat ctx fuel http path) [⟨.stat path, .ok someStat⟩, ⟨.now, someDate⟩] .abort :=
        .cons (httpGetRespHdr_suffixZero 0 0 hrange hbeg hend)
      exact not_neverAborts hruns
    · exact not_neverAborts (getFile_suffixZero path hrange hbeg hend)

/-- Without a file everything but a suffix is refused. -/
theorem answerTo_zero (hsome : range.AsksForSome) : answerTo 0 range = .refused ↔ ∀ length, range ≠ .suffix length := by
  cases range with
  | suffix length =>
    have hselect : (ByteRange.suffix length).select 0 = none := if_neg (by omega)
    have hlong : (ByteRange.suffix length).isOverlong 0 = true := decide_eq_true hsome
    rw [answerTo, hselect]
    simp [hlong]
  | _ => simp [answerTo, ByteRange.select, ByteRange.isOverlong]

end Asserts

/-- **A request for a range aborts the server exactly if it is for no bytes, or for a part of `/` that is
refused.** -/
theorem range_never_aborts_iff (ctx : Ctx) (fuel : Nat) {buf : Bytes} {http : Http} {pos : Nat}
    (hparse : Scan.Scans headStep buf .init 0 (.halted http.toFields pos .done)) (hrange : http.hasRange = true)
    (hmethod : http.httpMethod = .get ∨ http.httpMethod = .head)
    (hvalid : mogValidPath (requestPath http buf) = true) (hforward : http.forward = none)
    (hwbuf : http.wbuf = .null) :
    ∃ range : ByteRange, (http.rangeBeg = range.beg ∧ http.rangeEnd = range.end_) ∧
      (NeverAborts (mogHttpGetOpen ctx fuel http buf) ↔
        range.Safe http.httpMethod (requestPath http buf)) := by
  have hbounds := headScan_rangeBounds hparse
  obtain ⟨range, hbeg, hend⟩ := exists_byteRange hbounds.beg hbounds.end_
  refine ⟨range, ⟨hbeg, hend⟩, ?_⟩
  have hput : http.httpMethod ≠ .put := by
    rcases hmethod with h | h <;> simp [h]
  rw [mogHttpGetOpen_eq (headScan_target hparse) hvalid hput hforward]
  by_cases hzero : range = .suffix 0
  · subst hzero
    exact iff_of_false (get_suffixZero_aborts hrange hbeg hend) fun hsafe => hsafe.1 rfl
  · have hsome : range.AsksForSome := ByteRange.asksForSome_iff.mpr hzero
    split
    · rename_i hroot
      by_cases hsafe : http.httpMethod ≠ .head → ∃ length, range = .suffix length
      · refine iff_of_true ?_ ⟨hzero, fun _ => hsafe⟩
        have hsure : (httpGetRespHdr ctx fuel http ((0 : Nat) : Int) 0).Sure (fun _ => True) fun _ => True := by
          apply httpGetRespHdr_sure 0 (by decide) hrange hbeg hend hsome hwbuf
          intro hrefused
          left
          by_contra hhead
          obtain ⟨length, hsuffix⟩ := hsafe hhead
          exact (answerTo_zero hsome).mp hrefused length hsuffix
        exact hsure.not_runs_abort
      · have hget : http.httpMethod ≠ .head := fun hhead => hsafe fun hne => absurd hhead hne
        have hrefused : answerTo 0 range = .refused := by
          rw [answerTo_zero hsome]
          intro length hsuffix
          exact hsafe fun _ => ⟨length, hsuffix⟩
        have hruns : Runs (httpGetRespHdr ctx fuel http 0 0) [⟨.now, someDate⟩] .abort :=
          httpGetRespHdr_root hrange hbeg hend hsome hrefused hget hforward
        exact iff_of_false (not_neverAborts hruns) fun h => hsafe (h.2 hroot)
    · rename_i hroot
      refine iff_of_true ?_ ⟨hzero, fun hpath => absurd hpath hroot⟩
      split
      · exact (headStat_sure _ hrange hbeg hend hsome hwbuf ‹_›).not_runs_abort
      · exact (getFile_sure _ hrange hbeg hend hsome hwbuf).not_runs_abort

/-- A GET for the last `length` bytes of `/a`. -/
def suffixRequest (length : Int) : Http :=
  { mogHttpInit with
    cs := .final, httpMethod := .get, pathTip := 4, pathEnd := 6, lineEnd := 33, hasRange := true,
    rangeBeg := -1, rangeEnd := length }

/-- The last two bytes of a file are sent. -/
theorem range_never_aborts_suffix :
    let head := ascii "GET /a HTTP/1.0\r\nRange: bytes=-2\r\n\r\n"
    Accepts head (suffixRequest 2).toFields ∧
      ∃ range : ByteRange, ((suffixRequest 2).rangeBeg = range.beg ∧ (suffixRequest 2).rangeEnd = range.end_) ∧
        (NeverAborts (mogHttpGetOpen plainCtx 1 (suffixRequest 2) head) ↔
          range.Safe .get (requestPath (suffixRequest 2) head)) := by
  intro head
  have hparse : Accepts head (suffixRequest 2).toFields := by
    apply @accepts_of_exec _ _ 64
    decide +kernel
  exact ⟨hparse, range_never_aborts_iff plainCtx 1 hparse rfl (Or.inl rfl) (by decide +kernel) rfl rfl⟩

/-- `bytes=-0` for a file that exists: `assert(count > 0)` fails. -/
theorem range_suffixZero_aborts :
    let head := ascii "GET /a HTTP/1.0\r\nRange: bytes=-0\r\n\r\n"
    Accepts head (suffixRequest 0).toFields ∧
      mogValidPath (requestPath (suffixRequest 0) head) = true ∧
      Runs (mogHttpGetOpen plainCtx 1 (suffixRequest 0) head)
        [⟨.openRead (ascii "/a"), .ok 0⟩, ⟨.fstat 0, .ok someStat⟩, ⟨.now, someDate⟩] .abort := by
  intro head
  have hparse : Accepts head (suffixRequest 0).toFields := by
    apply @accepts_of_exec _ _ 64
    decide +kernel
  have hpath : requestPath (suffixRequest 0) head = ascii "/a" := by decide +kernel
  have hvalid : mogValidPath (requestPath (suffixRequest 0) head) = true := by decide +kernel
  refine ⟨hparse, hvalid, ?_⟩
  rw [mogHttpGetOpen_eq (headScan_target hparse) hvalid (by decide) rfl, hpath, if_neg (by decide +kernel),
    if_neg (by decide)]
  exact getFile_suffixZero (ascii "/a") rfl rfl rfl

end Cmogstored
