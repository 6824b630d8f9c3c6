import Cmogstored.HttpRule
import Cmogstored.Script

/-! What a GET delivers. The head of a response goes through `mog_trysend` and, where the socket
blocks, through a flush; the body follows from `sendfile`. As long as no call fails hard, what was
sent and what is still owed make up the announced response at every moment; the one way to lose part
of it is the flush of a blocked head to a client that does not keep the connection, after which
`http_wbuf_in_progress` closes without looking at `forward`. -/

namespace Cmogstored

open List Prog

variable {file : MogFile} {request : Call}

variable (ctx : Ctx) (fuel : Nat) (http : Http) (buf : Bytes)

/-! ### The wire -/

/-- What goes over the wire: a byte from memory, or the byte of an open file at some position. -/
inductive Wire where
  | byte (value : Byte)
  | file (fd : Fd) (pos : Int)
  deriving DecidableEq, Repr

def wireText (bytes : Bytes) : List Wire := bytes.map .byte

/-- `count` bytes of a file from `offset` on. -/
def wireFile (fd : Fd) (offset : Int) (count : Nat) : List Wire :=
  (List.range count).map fun k : Nat => .file fd (offset + k)

theorem wireText_take_drop (bytes : Bytes) (n : Nat) :
    wireText (bytes.take n) ++ wireText (bytes.drop n) = wireText bytes := by
  rw [wireText, wireText, ← map_append, take_append_drop]
  rfl

theorem wireFile_zero (fd : Fd) (offset : Int) : wireFile fd offset 0 = [] := rfl

theorem wireFile_length (fd : Fd) (offset : Int) (count : Nat) :
    (wireFile fd offset count).length = count := by
  simp [wireFile]

theorem wireFile_add (fd : Fd) (offset : Int) (first second : Nat) :
    wireFile fd offset first ++ wireFile fd (offset + first) second =
      wireFile fd offset (first + second) := by
  rw [wireFile, wireFile, wireFile, range_add, map_append, map_map]
  refine congrArg _ (map_congr_left fun k _ => ?_)
  simp [Int.add_assoc]

/-- What a write buffer still holds. -/
def Wbuf.rest : Wbuf → List Wire
  | .pending buf off => wireText (buf.drop off)
  | _ => []

@[simp] theorem Wbuf.rest_null : Wbuf.null.rest = [] := rfl

/-- What is left of the window of a file. -/
def MogFile.rest (file : MogFile) : List Wire :=
  wireFile file.fd file.foff (file.fsize - file.foff).toNat

def bodyRest (forward : Option MogFile) : List Wire := forward.elim [] MogFile.rest

/-! ### The ghost state -/

structure Response where
  status : Status
  head : Bytes
  offset : Int
  count : Nat
  deriving DecidableEq, Repr

/-- The response as the client should see it. -/
def Response.wire (response : Response) (fd : Fd) : List Wire :=
  wireText response.head ++ wireFile fd response.offset response.count

/-- The head says how many bytes follow it. -/
def Announces (head : Bytes) (count : Nat) : Prop :=
  ∃ front back, head =
    front ++ ascii "\r\nContent-Length: " ++ decimal count ++ ascii "\r\n" ++ back

/-- The request being answered, the file opened for it, its response, what of it was sent, and
whether its head was blocked. -/
structure Delivery where
  method : Method
  persistent : Bool
  fd : Fd
  response : Option Response
  sent : List Wire
  blocked : Bool
  deriving DecidableEq, Repr

variable {delivery : Delivery} {response : Response}

def Delivery.next (delivery : Delivery) : (request : Call) → Res request → Delivery
  | .note (.handed http _), _ =>
    { delivery with method := http.httpMethod, persistent := http.persistent, response := none }
  | .note (.response status _ head offset count), _ =>
    { delivery with response := some ⟨status, head, offset, count⟩, sent := [], blocked := false }
  | .note (.reset _), _ => { delivery with response := none }
  | .openRead _, .ok fd => { delivery with fd := fd }
  | .send buf _, .ok w => { delivery with sent := delivery.sent ++ wireText (buf.take w) }
  | .send _ _, .error .EAGAIN => { delivery with blocked := true }
  | .writev iov, .ok w => { delivery with sent := delivery.sent ++ wireText (iov.flatten.take w) }
  | .writev _, .error .EAGAIN => { delivery with blocked := true }
  | .write buf, .ok w => { delivery with sent := delivery.sent ++ wireText (buf.take w) }
  | .sendfile fd foff _, .ok w => { delivery with sent := delivery.sent ++ wireFile fd foff w }
  | _, _ => delivery

/-- A status that announces a document. -/
def Status.isDocument (status : Status) : Bool := status = .ok || status = .partialContent

/-- A GET that is answered with a document. -/
def Delivery.document (delivery : Delivery) : Option Response :=
  if delivery.method = .get then
    delivery.response.filter fun response => response.status.isDocument
  else none

/-- The client does not stay, its head was blocked, and a body should follow. -/
def Delivery.cut (delivery : Delivery) (response : Response) : Prop :=
  delivery.blocked = true ∧ delivery.persistent = false ∧ response.count ≠ 0

/-- A document is announced as it is, and was sent completely unless it was cut. -/
def Delivery.Settled (delivery : Delivery) : Prop :=
  ∀ response, delivery.document = some response → Announces response.head response.count ∧
    (delivery.sent = response.wire delivery.fd ↔ ¬delivery.cut response)

/-- No hard error, and a file that is not truncated. -/
def calm : (request : Call) → Res request → Bool
  | .send _ _, .error errno => !errno.hard
  | .writev _, .error errno => !errno.hard
  | .write _, .error errno => !errno.hard
  | .sendfile _ _ _, .error errno => !errno.hard
  | .sendfile _ _ count, .ok w => count == 0 || 0 < w.val
  | _, _ => true

theorem Errno.eq_of_calm {errno : Errno} (h : (!errno.hard) = true) :
    errno = .EAGAIN ∨ errno = .EINTR :=
  Errno.eq_of_not_hard (by simpa using h)

def deliveryContract : Contract Call Res Delivery where
  must delivery
    | .note (.reset _) => delivery.Settled
    | .note (.stepped .close _) => delivery.Settled
    | _ => True
  may _ request answer := calm request answer = true
  next := Delivery.next
  excused _ := True

/-! ### Writing a head -/

/-- What writing `bytes` of a head leaves: everything is sent or pending, and it is pending exactly
if the socket has blocked. -/
structure Written (delivery : Delivery) (bytes : Bytes) (wbuf : Wbuf) (delivery' : Delivery) : Prop where
  wire : delivery'.sent ++ wbuf.rest = delivery.sent ++ wireText bytes
  error : wbuf ≠ .error
  blocked : delivery'.blocked = true ↔ wbuf ≠ .null
  rest : delivery' = { delivery with sent := delivery'.sent, blocked := delivery'.blocked }

theorem Written.nothing (hblocked : delivery.blocked = false) :
    Written delivery [] .null delivery :=
  ⟨by simp [Wbuf.rest, wireText], by simp, by simp [hblocked], rfl⟩

theorem Written.full {delivery : Delivery} {bytes : Bytes} {w : Nat} (hw : w = bytes.length)
    (hblocked : delivery.blocked = false) : Written delivery bytes .null
      { delivery with sent := delivery.sent ++ wireText (bytes.take w) } :=
  ⟨by simp [Wbuf.rest, hw], by simp, by simp [hblocked], rfl⟩

theorem Written.busy {bytes : Bytes} :
    Written delivery bytes (.pending bytes 0) { delivery with blocked := true } :=
  ⟨by simp [Wbuf.rest], by simp, by simp, rfl⟩

/-- A short write goes on with what is left. -/
theorem Written.short {delivery delivery' : Delivery} {bytes : Bytes} {wbuf : Wbuf} {w : Nat}
    (h : Written { delivery with sent := delivery.sent ++ wireText (bytes.take w) } (bytes.drop w) wbuf
      delivery') : Written delivery bytes wbuf delivery' where
  wire := by rw [h.wire, append_assoc, wireText_take_drop]
  error := h.error
  blocked := h.blocked
  rest := h.rest

theorem trywritevRetry_delivery (iov : List Bytes) (delivery : Delivery)
    (hblocked : delivery.blocked = false) :
    wp deliveryContract (trywritevRetry fuel iov.flatten.length iov) (Written delivery iov.flatten) delivery := by
  induction fuel generalizing iov delivery with
  | zero => trivial
  | succ fuel ih =>
    rw [trywritevRetry_succ]
    refine ⟨trivial, fun answer hcalm => ?_⟩
    rcases answer with errno | w
    · rcases Errno.eq_of_calm hcalm with rfl | rfl
      · exact Written.busy
      · exact ih _ _ hblocked
    · show wp _ (if _ then _ else _) _ (Delivery.next _ (.writev iov) (.ok w))
      split
      · exact Written.full ‹_› hblocked
      · have hrest := ih (iovAdvance iov w) { delivery with
          sent := delivery.sent ++ wireText (iov.flatten.take w) } hblocked
        exact wp_mono hrest fun _ _ h => Written.short (iovAdvance_flatten iov w ▸ h)

theorem trysendLoop_delivery (more : Bool) (delivery : Delivery)
    (hblocked : delivery.blocked = false) :
    wp deliveryContract (trysendLoop fuel buf more) (Written delivery buf) delivery := by
  induction fuel generalizing buf delivery with
  | zero => trivial
  | succ fuel ih =>
    rw [trysendLoop]
    split
    · rename_i hempty
      rw [length_eq_zero_iff.mp hempty]
      exact Written.nothing hblocked
    · refine ⟨trivial, fun answer hcalm => ?_⟩
      rcases answer with errno | w
      · rcases Errno.eq_of_calm hcalm with rfl | rfl
        · exact Written.busy
        · exact ih _ _ hblocked
      · show wp _ (if _ then _ else _) _ (Delivery.next _ (.send buf more) (.ok w))
        split
        · exact Written.full ‹_› hblocked
        · exact wp_mono (ih _ _ hblocked) fun _ _ => Written.short

theorem mogTrywritev_delivery (iov : List Bytes) (delivery : Delivery)
    (hblocked : delivery.blocked = false) :
    wp deliveryContract (mogTrywritev fuel iov) (Written delivery iov.flatten) delivery := by
  unfold mogTrywritev
  split
  · rename_i hempty
    rw [length_eq_zero_iff.mp hempty]
    exact Written.nothing hblocked
  · exact trywritevRetry_delivery fuel iov delivery hblocked

theorem mogTrysend_delivery (more : Int) (delivery : Delivery)
    (hblocked : delivery.blocked = false) :
    wp deliveryContract (mogTrysend ctx fuel buf more) (Written delivery buf) delivery := by
  unfold mogTrysend
  split
  · exact trysendLoop_delivery fuel buf _ delivery hblocked
  · simpa using mogTrywritev_delivery fuel [buf] delivery hblocked

/-- What a flush leaves. -/
structure Flushed (delivery : Delivery) (bytes : Bytes) (result : WrState × Wbuf)
    (delivery' : Delivery) : Prop where
  wire : delivery'.sent ++ result.2.rest = delivery.sent ++ wireText bytes
  state : (result.1 = .done ∧ result.2 = .null) ∨ (result.1 = .busy ∧ result.2 ≠ .null ∧ result.2 ≠ .error)
  rest : delivery' = { delivery with sent := delivery'.sent }

theorem mogTryflush_delivery (off : Nat) (delivery : Delivery) :
    wp deliveryContract (mogTryflush fuel buf off) (Flushed delivery (buf.drop off)) delivery := by
  induction fuel generalizing off delivery with
  | zero => trivial
  | succ fuel ih =>
    refine ⟨trivial, fun answer hcalm => ?_⟩
    rcases answer with errno | w
    · rcases Errno.eq_of_calm hcalm with rfl | rfl
      · exact ⟨rfl, Or.inr ⟨rfl, by simp, by simp⟩, rfl⟩
      · exact ih _ _
    · show wp _ (if _ then _ else _) _ (Delivery.next _ (.write (buf.drop off)) (.ok w))
      split
      · rename_i hall
        refine ⟨?_, Or.inl ⟨rfl, rfl⟩, rfl⟩
        simp only [Delivery.next, hall, take_length]
        exact append_nil _
      · refine wp_mono (ih _ _) fun result delivery' h => ⟨?_, h.state, h.rest⟩
        rw [h.wire, ← drop_drop]
        simp only [Delivery.next, append_assoc, wireText_take_drop]

/-! ### What is still owed -/

/-- A document on its way: what was sent, what is pending and what the window of the file still
holds make up the response. -/
structure Owing (http : Http) (delivery : Delivery) (response : Response) : Prop where
  announces : Announces response.head response.count
  get : http.httpMethod = .get
  persistent : delivery.persistent = http.persistent
  wire : delivery.sent ++ http.wbuf.rest ++ bodyRest http.forward = response.wire delivery.fd
  file : ∀ file, http.forward = some file → 0 ≤ file.foff ∧ file.foff ≤ file.fsize ∧ file.fsize < 2 ^ 63
  error : http.wbuf ≠ .error
  pending : http.wbuf ≠ .null → delivery.blocked = true ∧ (bodyRest http.forward).length = response.count
  stays : http.wbuf = .null → delivery.blocked = true → delivery.persistent = true

/-- The connection between two steps. -/
structure Underway (http : Http) (delivery : Delivery) : Prop where
  owing : ∀ response, delivery.document = some response → Owing http delivery response
  open_ : delivery.document ≠ none → http.wbuf ≠ .null ∨ http.forward ≠ none
  method : http.forward ≠ none → delivery.method = http.httpMethod

/-- The end of a step. -/
def Delivery.StepEnd (result : Http × Next) (delivery : Delivery) : Prop :=
  if result.2 = .close then delivery.Settled else Underway result.1 delivery

theorem Delivery.stepEnd_close {http : Http} :
    StepEnd (http, .close) delivery ↔ delivery.Settled := by
  simp [StepEnd]

theorem Delivery.stepEnd_open {http : Http} {next : Next}
    (hnext : next ≠ .close) : StepEnd (http, next) delivery ↔ Underway http delivery := by
  simp [StepEnd, hnext]

theorem Delivery.settled_of_none (h : delivery.document = none) :
    delivery.Settled := by
  intro response hresponse
  rw [h] at hresponse
  cases hresponse

/-- A document of which nothing is owed any more. -/
theorem Owing.settled {http : Http}
    (h : Owing http delivery response) (hdocument : delivery.document = some response)
    (hnull : http.wbuf = .null) (hbody : bodyRest http.forward = []) : delivery.Settled := by
  intro response' hresponse
  obtain rfl : response = response' := Option.some.inj (hdocument.symm.trans hresponse)
  have hwire := h.wire
  rw [hnull, hbody, Wbuf.rest_null, append_nil, append_nil] at hwire
  refine ⟨h.announces, iff_of_true hwire ?_⟩
  rintro ⟨hblocked, hleaves, -⟩
  rw [h.stays hnull hblocked] at hleaves
  cases hleaves

/-- A blocked head that was flushed to a client that does not stay: the body is missing. -/
theorem Owing.settled_flushed {http : Http}
    (h : Owing http delivery response) (hpending : http.wbuf ≠ .null)
    (hleaves : delivery.persistent = false) {sent : List Wire}
    (hsent : sent = delivery.sent ++ http.wbuf.rest) (hdocument : delivery.document = some response) :
    Delivery.Settled { delivery with sent := sent } := by
  intro response' hresponse
  obtain rfl : response = response' := Option.some.inj (hdocument.symm.trans hresponse)
  obtain ⟨hblocked, hcount⟩ := h.pending hpending
  refine ⟨h.announces, ?_⟩
  have hwire : sent ++ bodyRest http.forward = response.wire delivery.fd := by
    rw [hsent]
    exact h.wire
  show sent = response.wire delivery.fd ↔ _
  rw [← hwire, Delivery.cut]
  constructor
  · intro hall hcut
    have hlength := congrArg List.length hall
    rw [length_append, hcount] at hlength
    exact hcut.2.2 (by omega)
  · intro hcut
    have hzero : response.count = 0 := by
      by_contra hne
      exact hcut ⟨hblocked, hleaves, hne⟩
    rw [hzero] at hcount
    rw [length_eq_zero_iff.mp hcount, append_nil]

theorem underway_of_none {http : Http} (hdocument : delivery.document = none)
    (hmethod : http.forward ≠ none → delivery.method = http.httpMethod) : Underway http delivery where
  owing response hresponse := by rw [hdocument] at hresponse; cases hresponse
  open_ hne := absurd hdocument hne
  method := hmethod

theorem Delivery.document_of_response (h : delivery.response = none) :
    delivery.document = none := by
  unfold document
  rw [h]
  split <;> rfl

/-- A reset ends the response. -/
theorem mogHttpReset_delivery {http : Http} (next : Next)
    (h : delivery.Settled) :
    wp deliveryContract (mogHttpReset http >>= fun http => pure (http, next)) Delivery.StepEnd
      delivery := by
  refine wp_ask_bind h fun _ _ => ?_
  have hdocument : Delivery.document { delivery with response := none } = none :=
    Delivery.document_of_response rfl
  by_cases hnext : next = .close
  · subst hnext
    exact Delivery.stepEnd_close.mpr (Delivery.settled_of_none hdocument)
  · exact (Delivery.stepEnd_open hnext).mpr
      (underway_of_none hdocument fun hforward => absurd rfl hforward)

/-! ### The body -/

theorem getDone_delivery (file : MogFile) (delivery : Delivery) (h : delivery.Settled) :
    wp deliveryContract (getDone http file) Delivery.StepEnd delivery := by
  refine wp_ask_bind trivial fun _ _ => ?_
  split
  · exact mogHttpReset_delivery .active h
  · exact Delivery.stepEnd_close.mpr h

/-- `sendfile` moves the window on by what it sent. -/
theorem MogFile.rest_advance (file : MogFile) (w : Nat) (hw : file.foff + w ≤ file.fsize) :
    wireFile file.fd file.foff w ++ MogFile.rest { file with foff := file.foff + w } = file.rest := by
  have hcount : (file.fsize - file.foff).toNat = w + (file.fsize - (file.foff + w)).toNat := by omega
  rw [MogFile.rest, MogFile.rest, hcount, ← wireFile_add]

theorem Owing.advance {http : Http}
    {w : Nat} (h : Owing http delivery response) (hnull : http.wbuf = .null)
    (hfile : http.forward = some file) (hw : file.foff + w ≤ file.fsize) :
    Owing { http with forward := some { file with foff := file.foff + w } }
      { delivery with sent := delivery.sent ++ wireFile file.fd file.foff w } response where
  announces := h.announces
  get := h.get
  persistent := h.persistent
  wire := by
    have hwire := h.wire
    rw [hnull, hfile, Wbuf.rest_null, append_nil] at hwire
    show delivery.sent ++ wireFile file.fd file.foff w ++ http.wbuf.rest ++
      MogFile.rest { file with foff := file.foff + w } = response.wire delivery.fd
    rw [hnull, Wbuf.rest_null, append_nil, append_assoc, MogFile.rest_advance file w hw]
    exact hwire
  file file' hfile' := by
    obtain ⟨hlow, -, hhigh⟩ := h.file file hfile
    obtain rfl := Option.some.inj hfile'
    exact ⟨show 0 ≤ file.foff + w by omega, hw, hhigh⟩
  error := h.error
  pending hpending := absurd hnull hpending
  stays := h.stays

theorem sendfileRetry_delivery (file : MogFile) (count : Nat)
    (delivery : Delivery) (response : Response) (hdocument : delivery.document = some response)
    (h : Owing http delivery response) (hnull : http.wbuf = .null)
    (hfile : http.forward = some file) (hmethod : delivery.method = http.httpMethod)
    (hpositive : 0 < count) (hcount : file.foff + count ≤ file.fsize) :
    wp deliveryContract (sendfileRetry fuel http file count) Delivery.StepEnd delivery := by
  induction fuel with
  | zero => trivial
  | succ fuel ih =>
    refine ⟨trivial, fun answer hcalm => ?_⟩
    rcases answer with errno | w
    · rcases Errno.eq_of_calm hcalm with rfl | rfl
      · refine (Delivery.stepEnd_open (by simp)).mpr ⟨?_, ?_, fun _ => hmethod⟩
        · intro response' hresponse
          obtain rfl : response = response' := Option.some.inj (hdocument.symm.trans hresponse)
          exact h
        · exact fun _ => Or.inr (by simp [hfile])
      · exact ih
    · have hw : file.foff + w.val ≤ file.fsize := by omega
      obtain ⟨hlow, -, hhigh⟩ := h.file file hfile
      have hwrap : wrap64 (file.foff + w.val) = file.foff + w.val :=
        wrap64_of_lt (by omega) (by omega)
      have hadvance := h.advance hnull hfile hw
      show wp _ (if 0 < w.val then _ else _) _ (Delivery.next _ (.sendfile _ _ count) (.ok w))
      have hmoved : 0 < w.val := by
        have hcalm : (count == 0 || decide (0 < w.val)) = true := hcalm
        rw [Bool.or_eq_true, beq_iff_eq, decide_eq_true_iff] at hcalm
        omega
      rw [if_pos hmoved]
      dsimp only
      rw [hwrap]
      split
      · rename_i hend
        refine getDone_delivery _ _ _ (hadvance.settled hdocument hnull ?_)
        have hzero : (file.fsize - (file.foff + w.val)).toNat = 0 := by omega
        show wireFile file.fd (file.foff + w.val) (file.fsize - (file.foff + w.val)).toNat = []
        rw [hzero, wireFile_zero]
      · refine (Delivery.stepEnd_open (by simp)).mpr ⟨?_, ?_, fun _ => hmethod⟩
        · intro response' hresponse
          obtain rfl : response = response' := Option.some.inj (hdocument.symm.trans hresponse)
          exact hadvance
        · exact fun _ => Or.inr (by simp)

theorem mogHttpGetInProgress_delivery (delivery : Delivery)
    (response : Response) (hdocument : delivery.document = some response)
    (h : Owing http delivery response) (hmethod : delivery.method = http.httpMethod) :
    wp deliveryContract (mogHttpGetInProgress fuel http) Delivery.StepEnd delivery := by
  refine wp_require_bind (fun _ => trivial) fun hnull => ?_
  have hnull : http.wbuf = .null := of_decide_eq_true hnull
  cases hfile : http.forward with
  | none => trivial
  | some file =>
    obtain ⟨hlow, hle, hhigh⟩ := h.file file hfile
    refine wp_require_bind (fun _ => trivial) fun _ => ?_
    dsimp only
    have hmin : min (file.fsize - file.foff) maxSendfile ≤ file.fsize - file.foff := by
      omega
    split
    · rename_i hzero
      refine getDone_delivery _ _ _ (h.settled hdocument hnull ?_)
      have hend : (file.fsize - file.foff).toNat = 0 := by
        unfold maxSendfile at hzero
        omega
      rw [hfile]
      show wireFile file.fd file.foff (file.fsize - file.foff).toNat = []
      rw [hend, wireFile_zero]
    · rename_i hzero
      have hpositive : 0 < min (file.fsize - file.foff) maxSendfile := by
        unfold maxSendfile at hzero ⊢
        omega
      have hmod : min (file.fsize - file.foff) maxSendfile % 2 ^ 64 =
          min (file.fsize - file.foff) maxSendfile := Int.emod_eq_of_lt (by omega) (by omega)
      rw [hmod]
      exact sendfileRetry_delivery fuel http file _ delivery response hdocument h hnull hfile hmethod
        (by omega) (by omega)

/-! ### Everything that is not a document -/

/-- Only handing over a request changes its method. -/
theorem Delivery.next_method (answer : Res request)
    (h : ∀ http buf, request ≠ .note (.handed http buf)) :
    (delivery.next request answer).method = delivery.method := by
  cases request with
  | note event => cases event <;> first | rfl | exact absurd rfl (h _ _)
  | send buf more => rcases answer with errno | w <;> [cases errno; skip] <;> rfl
  | writev iov => rcases answer with errno | w <;> [cases errno; skip] <;> rfl
  | write buf => rcases answer with errno | w <;> rfl
  | sendfile fd foff count => rcases answer with errno | w <;> rfl
  | openRead path => rcases answer with errno | fd <;> rfl
  | _ => rfl

theorem Delivery.document_of_method (h : delivery.method ≠ .get) :
    delivery.document = none := by
  simp [document, h]

theorem Delivery.must_of_none (h : delivery.document = none) :
    deliveryContract.must delivery request := by
  have hsettled := Delivery.settled_of_none h
  cases request with
  | note event =>
    cases event with
    | reset http => exact hsettled
    | stepped next http => cases next <;> first | exact hsettled | trivial
    | _ => trivial
  | _ => trivial

/-- Another method than GET delivers no document. -/
theorem wp_delivery_other {α : Type} {S : Call → Prop} {program : Io α} {R : α → Prop}
    (hafter : ∀ request, S request → AfterCall request)
    (h : program.Within S R) (hmethod : delivery.method ≠ .get) :
    wp deliveryContract program
      (fun value delivery' => R value ∧ delivery'.method = delivery.method) delivery := by
  refine wp_within (J := fun delivery' : Delivery => delivery'.method = delivery.method) ?_
    (fun _ _ => trivial) h rfl
  intro delivery' request hsame hrequest
  refine ⟨Delivery.must_of_none (Delivery.document_of_method (hsame ▸ hmethod)), fun answer _ => ?_⟩
  refine (Delivery.next_method answer ?_).trans hsame
  rintro http buf rfl
  exact hafter _ hrequest

/-- The calls that neither hand over a request nor start a response. -/
def PlainCall : Call → Prop
  | .note (.handed _ _) => False
  | .note (.response _ _ _ _ _) => False
  | _ => True

theorem Delivery.next_plain (answer : Res request)
    (h : PlainCall request) (hdocument : delivery.document = none) :
    (delivery.next request answer).document = none := by
  cases request with
  | note event =>
    cases event <;> first | exact h.elim | exact hdocument | exact document_of_response rfl
  | send buf more => rcases answer with errno | w <;> [cases errno; skip] <;> exact hdocument
  | writev iov => rcases answer with errno | w <;> [cases errno; skip] <;> exact hdocument
  | write buf => rcases answer with errno | w <;> exact hdocument
  | sendfile fd foff count => rcases answer with errno | w <;> exact hdocument
  | openRead path => rcases answer with errno | fd <;> exact hdocument
  | _ => exact hdocument

theorem wp_delivery_plain {α : Type} {S : Call → Prop} {program : Io α} {R : α → Prop}
    (hplain : ∀ request, S request → PlainCall request)
    (h : program.Within S R) (hdocument : delivery.document = none) :
    wp deliveryContract program (fun value delivery' =>
      R value ∧ delivery'.document = none ∧ delivery'.method = delivery.method) delivery := by
  refine wp_within (J := fun delivery' : Delivery =>
    delivery'.document = none ∧ delivery'.method = delivery.method) ?_ (fun _ _ => trivial) h
    ⟨hdocument, rfl⟩
  intro delivery' request hnone hrequest
  refine ⟨Delivery.must_of_none hnone.1, fun answer _ => ⟨?_, ?_⟩⟩
  · exact Delivery.next_plain answer (hplain request hrequest) hnone.1
  · refine (Delivery.next_method answer ?_).trans hnone.2
    rintro http buf rfl
    exact hplain _ hrequest

/-! ### The head of a document -/

theorem ascii_append (first second : String) : ascii (first ++ second) = ascii first ++ ascii second := by
  simp [ascii]

theorem getHead_announces_ok (now modified : HttpDate) (size : Int) (keepAlive : Bool) :
    Announces (getHead .ok now modified size keepAlive) size.toNat := by
  have hline : ascii "\r\nContent-Type: application/octet-stream\r\nAccept-Ranges: bytes\r\nConnection: " =
      ascii "\r\n" ++
        ascii "Content-Type: application/octet-stream\r\nAccept-Ranges: bytes\r\nConnection: " := by
    rw [← ascii_append]
    rfl
  refine ⟨ascii "HTTP/1.1 200 OK\r\nStatus: 200 OK\r\nDate: " ++ now.val ++
    ascii "\r\nLast-Modified: " ++ modified.val,
    ascii "Content-Type: application/octet-stream\r\nAccept-Ranges: bytes\r\nConnection: " ++
      connectionText keepAlive ++ ascii "\r\n\r\n", ?_⟩
  simp only [getHead, hline, decimal, Int.toNat_natCast, append_assoc]

theorem getHead_announces_partial (now modified : HttpDate) (size : Int) (keepAlive : Bool)
    (offset count rangeEnd : Int) :
    Announces (getHead (.partialContent offset count rangeEnd) now modified size keepAlive)
      count.toNat := by
  have hline : ascii "\r\nContent-Type: application/octet-stream\r\nContent-Range: bytes " =
      ascii "\r\n" ++ ascii "Content-Type: application/octet-stream\r\nContent-Range: bytes " := by
    rw [← ascii_append]
    rfl
  refine ⟨ascii "HTTP/1.1 206 Partial Content\r\nStatus: 206 Partial Content\r\nDate: " ++ now.val ++
    ascii "\r\nLast-Modified: " ++ modified.val,
    ascii "Content-Type: application/octet-stream\r\nContent-Range: bytes " ++ decimal offset ++
      ascii "-" ++ decimal (offset + count - 1) ++ ascii "/" ++ decimal size ++
      ascii "\r\nConnection: " ++ connectionText keepAlive ++ ascii "\r\n\r\n", ?_⟩
  simp only [getHead, hline, decimal, Int.toNat_natCast, append_assoc]

/-- What follows the head: exactly the announced bytes, from the file open for them. -/
structure Follows (forward : Option MogFile) (fd : Fd) (offset : Int) (count : Nat) : Prop where
  rest : bodyRest forward = wireFile fd offset count
  fd : ∀ file, forward = some file → file.fd = fd
  file : ∀ file, forward = some file → 0 ≤ file.foff ∧ file.foff ≤ file.fsize ∧ file.fsize < 2 ^ 63

/-- A window of `count` bytes from `offset` on. -/
theorem Follows.window {count : Int} (hoffset : 0 ≤ file.foff) (hcount : 0 ≤ count)
    (hsize : file.fsize = file.foff + count) (hhigh : file.fsize < 2 ^ 63) :
    Follows (some file) file.fd file.foff count.toNat where
  rest := by
    show wireFile file.fd file.foff (file.fsize - file.foff).toNat = _
    rw [hsize, show file.foff + count - file.foff = count by omega]
  fd file' hfile := by
    obtain rfl := Option.some.inj hfile
    rfl
  file file' hfile := by
    obtain rfl := Option.some.inj hfile
    exact ⟨hoffset, by omega, hhigh⟩

theorem Follows.nothing {fd : Fd} : Follows none fd 0 0 where
  rest := rfl
  fd _ hfile := by cases hfile
  file _ hfile := by cases hfile

/-- A partial reply narrows the window of the file. -/
theorem Follows.narrow {forward : Option MogFile} {fd : Fd} {size offset count : Int}
    (h : Follows forward fd 0 size.toNat) (hforward : forward ≠ none)
    (hsize : size < 2 ^ 63) (hoffset : 0 ≤ offset) (hcount : 0 < count)
    (hinside : offset + count ≤ size) :
    Follows (forward.map fun file => { file with foff := offset, fsize := offset + count }) fd offset
      count.toNat := by
  obtain ⟨file, rfl⟩ := Option.ne_none_iff_exists'.mp hforward
  have hhigh : offset + count < 2 ^ 63 := by omega
  rw [← h.fd file rfl]
  exact Follows.window hoffset (by omega) rfl hhigh

/-- A file just opened: all of it follows. -/
theorem Follows.whole (size : Fin (2 ^ 63)) (hfoff : file.foff = 0) :
    Follows (some { file with fsize := size.val }) file.fd 0 (size.val : Int).toNat := by
  have hhigh : (size.val : Int) < 2 ^ 63 := by exact_mod_cast size.isLt
  rw [← hfoff]
  refine Follows.window ?_ (Int.natCast_nonneg _) ?_ hhigh
  · exact Int.le_of_eq hfoff.symm
  · show (size.val : Int) = file.foff + size.val
    rw [hfoff, Int.zero_add]

/-- A GET before its head is written. -/
structure Asking (http : Http) (delivery : Delivery) (size : Int) : Prop where
  get : http.httpMethod = .get
  method : delivery.method = .get
  persistent : delivery.persistent = http.persistent
  follows : Follows http.forward delivery.fd 0 size.toNat
  -- no file is open for the root
  size : 0 ≤ size ∧ size < 2 ^ 63 ∧ (http.forward = none → size = 0)

/-- A GET after its head was written. -/
structure Answering (http : Http) (delivery : Delivery) : Prop where
  owing : ∀ response, delivery.document = some response → Owing http delivery response
  method : http.forward ≠ none → delivery.method = http.httpMethod

/-- A head that is written for a document, with its body ready to follow. -/
theorem Owing.written {http : Http} {delivery' : Delivery}
    {wbuf : Wbuf} (hannounces : Announces response.head response.count)
    (hget : http.httpMethod = .get) (hpersistent : delivery.persistent = http.persistent)
    (hfollows : Follows http.forward delivery.fd response.offset response.count)
    (hwritten : Written { delivery with response := some response, sent := [], blocked := false }
      response.head wbuf delivery') :
    Owing { http with wbuf := wbuf } delivery' response where
  announces := hannounces
  get := hget
  persistent := by rw [hwritten.rest]; exact hpersistent
  wire := by
    have hfd : delivery'.fd = delivery.fd := by rw [hwritten.rest]
    show delivery'.sent ++ wbuf.rest ++ bodyRest http.forward = _
    rw [hwritten.wire, hfollows.rest, hfd]
    rfl
  file := hfollows.file
  error := hwritten.error
  pending hpending := by
    refine ⟨hwritten.blocked.mpr hpending, ?_⟩
    show (bodyRest http.forward).length = _
    rw [hfollows.rest, wireFile_length]
  stays hnull hblocked := absurd hnull (hwritten.blocked.mp hblocked)

theorem Delivery.document_of_sent {response' : Response}
    (hmethod : delivery.method = .get) (hresponse : delivery.response = some response)
    (h : delivery.document = some response') :
    response.status.isDocument = true ∧ response' = response := by
  rw [document, if_pos hmethod, hresponse, Option.filter_eq_some_iff] at h
  obtain ⟨hsome, hstatus⟩ := h
  obtain rfl := Option.some.inj hsome
  exact ⟨hstatus, rfl⟩

/-- Writing the head of the reply that `http_get_resp_hdr` has chosen. -/
theorem getHead_delivery {http : Http}
    (status : Status) (keepAlive : Bool) (head : Bytes) (offset : Int) (count : Nat) (more : Int)
    (hmethod : delivery.method = .get) (hget : http.httpMethod = .get)
    (hpersistent : delivery.persistent = http.persistent)
    (hdocument : status.isDocument = true →
      Announces head count ∧ Follows http.forward delivery.fd offset count) :
    wp deliveryContract (do
      note (.response status keepAlive head offset count)
      let wbuf ← mogTrysend ctx fuel head more
      pure { http with wbuf := wbuf }) Answering delivery := by
  refine wp_ask_bind trivial fun _ _ => wp_bind.mpr ?_
  refine wp_mono (mogTrysend_delivery ctx fuel head more { delivery with
    response := some ⟨status, head, offset, count⟩, sent := [], blocked := false } rfl) ?_
  intro wbuf delivery' hwritten
  have hmethod' : delivery'.method = .get := by rw [hwritten.rest]; exact hmethod
  have hresponse' : delivery'.response = some ⟨status, head, offset, count⟩ := by rw [hwritten.rest]
  refine ⟨fun response hresponse => ?_, fun _ => hmethod'.trans hget.symm⟩
  obtain ⟨hstatus, rfl⟩ := Delivery.document_of_sent hmethod' hresponse' hresponse
  obtain ⟨hannounces, hfollows⟩ := hdocument hstatus
  exact Owing.written hannounces hget hpersistent hfollows hwritten

theorem getHead_announces {reply : RangeReply} (now modified : HttpDate) (size : Int)
    (keepAlive : Bool) (h : reply.status.isDocument = true) :
    Announces (getHead reply now modified size keepAlive) (reply.count size).toNat := by
  cases reply with
  | ok => exact getHead_announces_ok now modified size keepAlive
  | partialContent offset count rangeEnd =>
    exact getHead_announces_partial now modified size keepAlive offset count rangeEnd
  | bad => simp [RangeReply.status, Status.isDocument] at h

/-- The reply that was chosen leaves the window it announces. -/
theorem applyRange_delivery {http : Http} {size : Int} {reply : RangeReply}
    (h : Asking http delivery size) (hreply : rangeReply http size = some reply) :
    wp deliveryContract (applyRange http reply) (fun http' delivery' =>
      http'.httpMethod = .get ∧ http'.persistent = http.persistent ∧ delivery' = delivery ∧
      (reply.status.isDocument = true →
        Follows http'.forward delivery.fd reply.offset (reply.count size).toNat)) delivery := by
  cases reply with
  | ok => exact ⟨h.get, rfl, rfl, fun _ => h.follows⟩
  | partialContent offset count rangeEnd =>
    obtain ⟨hoffset, hcount, hinside, -⟩ := rangeReply_partial hreply
    have hforward : http.forward ≠ none := fun hnone => by
      have := h.size.2.2 hnone
      omega
    exact ⟨h.get, rfl, rfl, fun _ =>
      h.follows.narrow hforward h.size.2.1 hoffset hcount hinside⟩
  | bad =>
    have hnot : ∀ {P : Prop}, RangeReply.bad.status.isDocument = true → P := fun h => by
      simp [RangeReply.status, Status.isDocument] at h
    unfold applyRange
    cases hforward : http.forward with
    | none => exact wp_require_bind (fun _ => trivial) fun _ => ⟨h.get, rfl, rfl, hnot⟩
    | some file => exact wp_ask_bind trivial fun _ _ => ⟨h.get, rfl, rfl, hnot⟩

theorem httpGetRespHdr_delivery {http : Http}
    (size mtime : Int) (h : Asking http delivery size) :
    wp deliveryContract (httpGetRespHdr ctx fuel http size mtime) Answering delivery := by
  refine wp_ask_bind trivial fun now _ => ?_
  split
  · trivial
  · rename_i reply hreply
    refine wp_bind.mpr (wp_mono (applyRange_delivery h hreply) ?_)
    rintro http' _ ⟨hget, hpersistent, rfl, hfollows⟩
    refine wp_require_bind (fun _ => trivial) fun _ => wp_require_bind (fun _ => trivial) fun _ => ?_
    rw [if_neg (show http'.httpMethod ≠ .head by simp [hget])]
    exact getHead_delivery ctx fuel _ _ _ _ _ _ h.method hget (h.persistent.trans hpersistent.symm)
      fun hstatus => ⟨getHead_announces _ _ _ _ hstatus, hfollows hstatus⟩

/-- An error answer is no document. -/
theorem mogHttpResp_delivery {http : Http} (status : Status)
    (alive : Bool) (hstatus : status.isDocument = false) :
    wp deliveryContract (mogHttpResp fuel http status alive) (fun http' delivery' =>
      http'.forward = http.forward ∧ delivery'.document = none) delivery := by
  refine wp_ask_bind trivial fun date _ => wp_require_bind (fun _ => trivial) fun _ => ?_
  refine wp_ask_bind trivial fun _ _ => wp_bind.mpr ?_
  refine wp_mono (mogTrywritev_delivery fuel _ _ rfl) fun wbuf delivery' hwritten => ⟨rfl, ?_⟩
  rw [hwritten.rest]
  show (if delivery.method = .get then (some _).filter _ else none) = none
  simp [Option.filter, hstatus]

theorem answering_of_none {http : Http} (hdocument : delivery.document = none)
    (hforward : http.forward = none) : Answering http delivery where
  owing response hresponse := by rw [hdocument] at hresponse; cases hresponse
  method hne := absurd hforward hne

theorem mogHttpResp_answering {http : Http} (status : Status)
    (alive : Bool) (hstatus : status.isDocument = false) (hforward : http.forward = none) :
    wp deliveryContract (mogHttpResp fuel http status alive) Answering delivery :=
  wp_mono (mogHttpResp_delivery fuel status alive hstatus) fun _ _ h =>
    answering_of_none h.2 (h.1.trans hforward)

theorem getErr_delivery {http : Http} (errno : Errno)
    (hforward : http.forward = none) :
    wp deliveryContract (getErr fuel http errno) Answering delivery := by
  unfold getErr
  split <;> exact mogHttpResp_answering fuel _ true rfl hforward

/-- A GET as it is handed over. -/
structure Requested (http : Http) (delivery : Delivery) : Prop where
  get : http.httpMethod = .get
  method : delivery.method = .get
  persistent : delivery.persistent = http.persistent
  forward : http.forward = none

/-- What opening a file leaves: only the descriptor changes. -/
def Opening (delivery : Delivery) (answer : Except Errno Fd) (delivery' : Delivery) : Prop :=
  delivery' = { delivery with fd := delivery'.fd } ∧ ∀ fd, answer = .ok fd → delivery'.fd = fd

theorem openRead_delivery (path : Bytes) (delivery : Delivery) :
    wp deliveryContract (sys (.openRead path)) (Opening delivery) delivery := by
  refine ⟨trivial, fun answer _ => ?_⟩
  rcases answer with errno | fd
  · exact ⟨rfl, fun fd h => by cases h⟩
  · refine ⟨rfl, fun fd' h => ?_⟩
    cases h
    rfl

theorem mogFileOpenRead_delivery (path : Bytes) (delivery : Delivery) :
    wp deliveryContract (mogFileOpenRead path) (fun answer delivery' =>
      delivery' = { delivery with fd := delivery'.fd } ∧
      ∀ file, answer = .ok file → file.fd = delivery'.fd ∧ file.foff = 0) delivery := by
  have hretry : wp deliveryContract (openExpireRetry (sys (.openRead path))) (Opening delivery)
      delivery := by
    refine wp_bind.mpr (wp_mono (openRead_delivery path delivery) ?_)
    rintro (errno | fd) delivery' hopening
    · have hexpire : wp deliveryContract (mogOpenExpireRetry errno)
          (fun _ delivery'' => delivery'' = delivery') delivery' := by
        unfold mogOpenExpireRetry
        split <;> first | exact rfl | exact wp_ask_bind trivial fun _ _ => rfl
      refine wp_bind.mpr (wp_mono hexpire ?_)
      rintro ⟨again, errno'⟩ _ rfl
      cases again
      · exact ⟨hopening.1, fun fd h => by cases h⟩
      · refine wp_mono (openRead_delivery path _) fun answer delivery'' hopening' => ⟨?_, hopening'.2⟩
        rw [hopening'.1, hopening.1]
    · exact hopening
  refine wp_bind.mpr (wp_mono hretry ?_)
  rintro (errno | fd) delivery' hopening
  · exact ⟨hopening.1, fun file h => by cases h⟩
  · refine ⟨hopening.1, fun file h => ?_⟩
    cases h
    exact ⟨(hopening.2 fd rfl).symm, rfl⟩

theorem getFile_delivery {http : Http} (path : Bytes)
    (h : Requested http delivery) :
    wp deliveryContract (getFile ctx fuel http path) Answering delivery := by
  refine wp_bind.mpr (wp_mono (mogFileOpenRead_delivery path delivery) ?_)
  rintro (errno | file) delivery' ⟨hsame, hopened⟩
  · exact getErr_delivery fuel errno h.forward
  · obtain ⟨hfd, hfoff⟩ := hopened file rfl
    refine wp_ask_bind trivial fun answer _ => ?_
    rcases answer with errno | sb
    · exact wp_ask_bind trivial fun _ _ => getErr_delivery fuel _ h.forward
    · dsimp only
      split
      · refine httpGetRespHdr_delivery ctx fuel _ _ ⟨h.get, ?_, ?_, ?_, ?_⟩
        · show delivery'.method = .get
          rw [hsame]
          exact h.method
        · show delivery'.persistent = http.persistent
          rw [hsame]
          exact h.persistent
        · show Follows _ delivery'.fd 0 _
          rw [← hfd]
          exact Follows.whole sb.size hfoff
        · exact ⟨Int.natCast_nonneg _, by exact_mod_cast sb.size.isLt, fun hnone => by cases hnone⟩
      · exact wp_ask_bind trivial fun _ _ => mogHttpResp_answering fuel _ true rfl h.forward

theorem mogHttpGetOpen_delivery {http : Http} (h : Requested http delivery) :
    wp deliveryContract (mogHttpGetOpen ctx fuel http buf) Answering delivery := by
  refine wp_bind.mpr (wp_mono (wp_within (J := fun delivery' => delivery' = delivery)
    (S := fun _ => False) (fun _ _ _ hfalse => hfalse.elim) (fun _ _ => trivial)
    (mogHttpPath_within http buf) rfl) ?_)
  rintro path _ ⟨-, rfl⟩
  split
  · exact mogHttpResp_answering fuel _ true rfl h.forward
  · refine wp_require_bind (fun _ => trivial) fun _ => wp_require_bind (fun _ => trivial) fun _ => ?_
    split
    · refine httpGetRespHdr_delivery ctx fuel _ _ ⟨h.get, h.method, h.persistent, ?_, by simp⟩
      rw [h.forward]
      exact Follows.nothing
    · rw [if_neg (show http.httpMethod ≠ .head by simp [h.get])]
      exact getFile_delivery ctx fuel _ h

/-! ### Steps and runs -/

theorem stepEnd_of_none {http : Http} {next : Next}
    (hdocument : delivery.document = none)
    (hmethod : http.forward ≠ none → delivery.method = http.httpMethod) :
    Delivery.StepEnd (http, next) delivery := by
  by_cases hnext : next = .close
  · subst hnext
    exact Delivery.stepEnd_close.mpr (Delivery.settled_of_none hdocument)
  · exact (Delivery.stepEnd_open hnext).mpr (underway_of_none hdocument hmethod)

theorem SendCall.plain (request : Call) (h : SendCall request) : PlainCall request := by
  cases request with
  | note event => cases event <;> trivial
  | _ => trivial

theorem httpForwardInProgress_delivery (delivery : Delivery)
    (h : Underway http delivery) (hforward : http.forward ≠ none) :
    wp deliveryContract (httpForwardInProgress ctx fuel http) Delivery.StepEnd delivery := by
  have hmethod := h.method hforward
  refine wp_ask_bind trivial fun _ _ => ?_
  split
  · cases hdocument : delivery.document with
    | some response =>
      exact mogHttpGetInProgress_delivery fuel http delivery response hdocument
        (h.owing response hdocument) hmethod
    | none =>
      refine wp_mono (wp_delivery_plain SendCall.plain (mogHttpGetInProgress_within fuel http)
        hdocument) ?_
      rintro ⟨http', next⟩ delivery' ⟨hsent, hnone, hsame⟩
      exact stepEnd_of_none hnone fun hne => (hsame.trans hmethod).trans (hsent.2 hne).symm
  · rename_i hget
    refine wp_require_bind (fun _ => trivial) fun _ => ?_
    obtain ⟨file, hfile⟩ := Option.ne_none_iff_exists'.mp hforward
    have hother : delivery.method ≠ .get := hmethod.symm ▸ hget
    refine wp_bind.mpr (wp_mono (wp_delivery_other BodyCall.after (putInProgress_within fuel http hfile)
      hother) ?_)
    rintro exit delivery' ⟨hsame, hexit⟩
    have hexit : delivery'.method = http.httpMethod := hexit.trans hmethod
    refine wp_mono (wp_delivery_other (fun _ => id) (putFinish_within ctx fuel exit)
      (hexit.symm ▸ hget)) ?_
    rintro ⟨http', next⟩ delivery'' ⟨hfinish, hend⟩
    have hend := hend.trans hexit
    refine stepEnd_of_none (Delivery.document_of_method (hend.symm ▸ hget)) fun hne => ?_
    rw [hend, ← hsame.request.httpMethod]
    exact (hfinish.1 hne).symm

theorem Answering.underway {http http' : Http} (h : Answering http delivery)
    (hfields : http'.toFields = http.toFields) (hwbuf : http'.wbuf = http.wbuf)
    (hforward : http'.forward = http.forward) (hopen : http.wbuf ≠ .null ∨ http.forward ≠ none) :
    Underway http' delivery where
  owing response hresponse := by
    have howing := h.owing response hresponse
    refine ⟨howing.announces, ?_, ?_, ?_, ?_, ?_, ?_, ?_⟩
    · rw [hfields]
      exact howing.get
    · rw [hfields]
      exact howing.persistent
    · rw [hwbuf, hforward]
      exact howing.wire
    · rw [hforward]
      exact howing.file
    · rw [hwbuf]
      exact howing.error
    · rw [hwbuf, hforward]
      exact howing.pending
    · rw [hwbuf]
      exact howing.stays
  open_ _ := by
    rw [hwbuf, hforward]
    exact hopen
  method hne := by
    rw [hfields]
    exact h.method (hforward ▸ hne)

/-- A response of which nothing is pending and nothing follows is complete. -/
theorem Answering.settled {http : Http} (h : Answering http delivery)
    (hnull : http.wbuf = .null) (hforward : http.forward = none) : delivery.Settled := by
  cases hdocument : delivery.document with
  | none => exact Delivery.settled_of_none hdocument
  | some response =>
    exact (h.owing response hdocument).settled hdocument hnull (by rw [hforward]; rfl)

theorem processMethod_delivery {http : Http} (hmethod : delivery.method = http.httpMethod)
    (hpersistent : delivery.persistent = http.persistent) (hforward : http.forward = none) :
    wp deliveryContract (processMethod ctx fuel http buf) Answering delivery := by
  by_cases hget : http.httpMethod = .get
  · unfold processMethod
    rw [hget]
    exact mogHttpGetOpen_delivery ctx fuel buf ⟨hget, hmethod.trans hget, hpersistent, hforward⟩
  · have hother : delivery.method ≠ .get := hmethod.symm ▸ hget
    refine wp_mono (wp_delivery_other ProcessCall.after (processMethod_within ctx fuel http buf)
      hother) ?_
    rintro http' delivery' ⟨hsame, hkept⟩
    have hnone := Delivery.document_of_method (hkept.symm ▸ hother)
    refine ⟨fun response hresponse => ?_, fun _ => ?_⟩
    · rw [hnone] at hresponse
      cases hresponse
    · rw [hkept, hmethod, hsame]

theorem queueDone_delivery {http : Http}
    (hforward : http.forward = none) :
    wp deliveryContract (queueDone ctx fuel http buf) Delivery.StepEnd delivery := by
  refine wp_bind.mpr (wp_ask_bind trivial fun _ _ => ?_)
  refine wp_mono (processMethod_delivery ctx fuel buf rfl rfl hforward) fun http' delivery' h => ?_
  split
  · rename_i herror
    refine stepEnd_of_none ?_ h.method
    by_contra hdocument
    obtain ⟨response, hresponse⟩ := Option.ne_none_iff_exists'.mp hdocument
    exact (h.owing response hresponse).error herror
  · rename_i hpending
    refine wp_bind.mpr (wp_httpDeferRbuf trivial fun http'' hfields hwbuf hforward' => ?_)
    exact (Delivery.stepEnd_open (by simp)).mpr
      (h.underway hfields hwbuf hforward' (Or.inl (by simp [hpending])))
  · rename_i hnull
    split
    · rename_i hopen
      refine wp_bind.mpr (wp_httpDeferRbuf trivial fun http'' hfields hwbuf hforward' => ?_)
      exact httpForwardInProgress_delivery ctx fuel http'' delivery'
        (h.underway hfields hwbuf hforward' (Or.inr hopen)) (hforward'.symm ▸ hopen)
    · rename_i hnone
      have hsettled := h.settled hnull (not_not.mp hnone)
      split
      · refine wp_bind.mpr (wp_httpDeferRbuf trivial fun http'' _ _ _ => ?_)
        exact mogHttpReset_delivery .active hsettled
      · exact Delivery.stepEnd_close.mpr hsettled

/-- A head that is flushed, or flushed in part. -/
theorem Owing.flushed {http : Http} {delivery' : Delivery}
    {bytes : Bytes} {result : WrState × Wbuf} (h : Owing http delivery response)
    (hpending : http.wbuf ≠ .null) (hbytes : http.wbuf.rest = wireText bytes)
    (hflushed : Flushed delivery bytes result delivery')
    (hstays : result.2 = .null → delivery.persistent = true) :
    Owing { http with wbuf := result.2 } delivery' response where
  announces := h.announces
  get := h.get
  persistent := by rw [hflushed.rest]; exact h.persistent
  wire := by
    show delivery'.sent ++ result.2.rest ++ bodyRest http.forward = _
    rw [hflushed.wire, ← hbytes, h.wire, hflushed.rest]
  file := h.file
  error := by
    rcases hflushed.state with ⟨-, hnull⟩ | ⟨-, -, herror⟩
    · show result.2 ≠ .error
      rw [hnull]
      simp
    · exact herror
  pending _ := by
    rw [hflushed.rest]
    exact h.pending hpending
  stays hnull _ := by
    rw [hflushed.rest]
    exact hstays hnull

theorem flushDone_plain {http : Http} (hdocument : delivery.document = none)
    (hmethod : http.forward ≠ none → delivery.method = http.httpMethod) :
    wp deliveryContract (flushDone http) Delivery.StepEnd delivery := by
  unfold flushDone
  split
  · split
    · exact mogHttpReset_delivery .active (Delivery.settled_of_none hdocument)
    · exact wp_require_bind (fun _ => trivial) fun _ => stepEnd_of_none hdocument hmethod
  · exact stepEnd_of_none hdocument hmethod

theorem FlushCall.plain (request : Call) (h : FlushCall request) : PlainCall request := by
  cases request with
  | note event => exact h.elim
  | _ => trivial

theorem httpWbufInProgress_delivery (delivery : Delivery)
    (h : Underway http delivery) :
    wp deliveryContract (httpWbufInProgress fuel http) Delivery.StepEnd delivery := by
  refine wp_ask_bind trivial fun _ _ => ?_
  split
  · trivial
  · trivial
  · rename_i buf off hpending
    cases hdocument : delivery.document with
    | none =>
      refine wp_bind.mpr (wp_mono (wp_delivery_plain FlushCall.plain
        (mogTryflush_within fuel buf off) hdocument) ?_)
      rintro ⟨state, wbuf⟩ delivery' ⟨-, hnone, hsame⟩
      have hmethod : http.forward ≠ none → delivery'.method = http.httpMethod :=
        fun hne => hsame.trans (h.method hne)
      cases state with
      | err => exact stepEnd_of_none hnone hmethod
      | busy => exact stepEnd_of_none hnone hmethod
      | done => exact flushDone_plain hnone hmethod
    | some response =>
      have howing := h.owing response hdocument
      have hne : http.wbuf ≠ .null := by simp [hpending]
      have hbytes : http.wbuf.rest = wireText (buf.drop off) := by rw [hpending]; rfl
      refine wp_bind.mpr (wp_mono (mogTryflush_delivery fuel buf off delivery) ?_)
      rintro ⟨state, wbuf⟩ delivery' hflushed
      have hdocument' : delivery'.document = some response := by
        rw [hflushed.rest]
        exact hdocument
      have hunderway : Owing { http with wbuf := wbuf } delivery' response →
          (wbuf ≠ .null ∨ http.forward ≠ none) → Underway { http with wbuf := wbuf } delivery' := by
        intro howing' hopen
        refine ⟨fun response' hresponse => ?_, fun _ => hopen, fun hforward => ?_⟩
        · obtain rfl := Option.some.inj (hdocument'.symm.trans hresponse)
          exact howing'
        · rw [hflushed.rest]
          exact h.method hforward
      rcases hflushed.state with ⟨rfl, hnull⟩ | ⟨rfl, hbusy, -⟩
      · obtain rfl : wbuf = .null := hnull
        show wp deliveryContract (flushDone { http with wbuf := .null }) _ _
        unfold flushDone
        split
        · rename_i hkeep
          have howing' := howing.flushed hne hbytes hflushed
            fun _ => howing.persistent.trans hkeep
          split
          · rename_i hforward
            refine mogHttpReset_delivery .active (howing'.settled hdocument' rfl ?_)
            rw [hforward]
            rfl
          · rename_i hforward
            refine wp_require_bind (fun _ => trivial) fun _ => ?_
            exact (Delivery.stepEnd_open (by simp)).mpr (hunderway howing' (Or.inr hforward))
        · rename_i hleave
          refine Delivery.stepEnd_close.mpr ?_
          have hsent := hflushed.wire
          rw [Wbuf.rest_null, append_nil, ← hbytes] at hsent
          rw [hflushed.rest]
          exact howing.settled_flushed hne
            (howing.persistent.trans (Bool.eq_false_iff.mpr hleave)) hsent hdocument
      · exact (Delivery.stepEnd_open (by simp)).mpr
          (hunderway (howing.flushed hne hbytes hflushed fun hnull => absurd hnull hbusy)
            (Or.inl hbusy))

theorem InputCall.plain (request : Call) (h : InputCall request) : PlainCall request := by
  cases request with
  | note event => cases event <;> trivial
  | _ => trivial

theorem queueFinish_delivery (input : Input) (delivery : Delivery)
    (hdocument : delivery.document = none) (hforward : input.http.forward = none) :
    wp deliveryContract (queueFinish ctx fuel input) Delivery.StepEnd delivery := by
  have herr : ∀ http status, http.forward = none → status.isDocument = false →
      wp deliveryContract (queueErr fuel http status) Delivery.StepEnd delivery := by
    intro http status hforward hstatus
    refine wp_bind.mpr (wp_mono (mogHttpResp_delivery fuel status false hstatus) ?_)
    rintro http' delivery' ⟨-, hnone⟩
    exact Delivery.stepEnd_close.mpr (Delivery.settled_of_none hnone)
  have hidle : ∀ next, Delivery.StepEnd (input.http, next) delivery := fun next =>
    stepEnd_of_none hdocument fun hne => absurd hforward hne
  cases input with
  | bad http errno =>
    refine herr http _ hforward ?_
    split <;> rfl
  | tooLong http => exact herr http _ hforward rfl
  | request http buf => exact queueDone_delivery ctx fuel buf hforward
  | blocked http => exact hidle .waitRd
  | gone http => exact hidle .close

theorem httpQueueStep_delivery (delivery : Delivery)
    (h : Underway http delivery) :
    wp deliveryContract (httpQueueStep ctx fuel http) Delivery.StepEnd delivery := by
  refine wp_httpQueueStep ?_ ?_ ?_
  · exact fun _ => httpWbufInProgress_delivery fuel http delivery h
  · exact fun _ => httpForwardInProgress_delivery ctx fuel http delivery h
  · intro hnull hnone
    have hdocument : delivery.document = none := by
      by_contra hne
      rcases h.open_ hne with hwbuf | hforward
      · exact hwbuf hnull
      · exact hforward hnone
    refine wp_mono (wp_delivery_plain InputCall.plain (queueInput_within fuel http) hdocument) ?_
    rintro input delivery' ⟨hsame, hnone', -⟩
    exact queueFinish_delivery ctx fuel input delivery' hnone' (hsame.forward.trans hnone)

theorem mogHttpQueueStep_delivery (delivery : Delivery)
    (h : Underway http delivery) :
    wp deliveryContract (mogHttpQueueStep ctx fuel http)
      (fun result delivery' => result.2 ≠ .close → Underway result.1 delivery') delivery := by
  refine wp_bind.mpr (wp_mono (httpQueueStep_delivery ctx fuel http delivery h) ?_)
  rintro ⟨http', next⟩ delivery' hend
  by_cases hclose : next = .close
  · subst hclose
    refine wp_ask_bind (Delivery.stepEnd_close.mp hend) fun _ _ => ?_
    refine wp_bind.mpr (wp_require_bind (fun _ => trivial) fun _ => ?_)
    exact ⟨trivial, fun _ _ hopen => absurd rfl hopen⟩
  · refine wp_ask_bind ?_ fun _ _ => ?_
    · cases next <;> trivial
    · rw [if_neg hclose]
      exact fun _ => (Delivery.stepEnd_open hclose).mp hend

def Delivery.start : Delivery := ⟨.none, false, 0, none, [], false⟩

/-- What a connection has delivered of its current response after a run. -/
def deliveryAfter (trace : Run) : Delivery := deliveryContract.after .start trace

theorem serve_delivery :
    wp deliveryContract (serve ctx fuel mogHttpInit) (fun _ _ => True) .start :=
  wp_serve (mogHttpQueueStep_delivery ctx) (underway_of_none rfl fun hne => absurd rfl hne)

/-- A contract whose permitted answers do not depend on the ghost state. -/
theorem allows_of_calm {trace : Run}
    (h : ∀ entry ∈ trace, calm entry.1 entry.2 = true) : deliveryContract.Allows delivery trace := by
  induction trace generalizing delivery with
  | nil => trivial
  | cons entry trace ih =>
    exact ⟨h entry mem_cons_self, ih fun entry' hmem => h entry' (mem_cons_of_mem entry hmem)⟩

/-- **A GET delivers what its head announces unless its blocked head is flushed to a client that
leaves.** In every run without hard errors, whenever the connection is reset or closed while the
current response is a document, its head announces `count` bytes, and what was sent is that head
followed by the `count` bytes of the file from `offset` on, if and only if not: the head was blocked,
the client does not keep the connection, and `count` is not zero. -/
theorem get_delivered_iff (ctx : Ctx) (fuel : Nat) (trace before after : Run) (q : Io Unit)
    (http : Http) (response : Response) (event : Event)
    (hrun : Runs (serve ctx fuel mogHttpInit) trace q)
    (hcalm : ∀ entry ∈ trace, calm entry.1 entry.2 = true)
    (htrace : trace = before ++ ⟨.note event, ()⟩ :: after)
    (hevent : event = .reset http ∨ event = .stepped .close http)
    (hresponse : (deliveryAfter before).document = some response) :
    Announces response.head response.count ∧
    ((deliveryAfter before).sent =
        wireText response.head ++ wireFile (deliveryAfter before).fd response.offset response.count ↔
      ¬((deliveryAfter before).blocked = true ∧ (deliveryAfter before).persistent = false ∧
        response.count ≠ 0)) := by
  have hmust : deliveryContract.must (deliveryAfter before) (.note event) :=
    must_of_runs (serve_delivery ctx fuel) hrun (allows_of_calm hcalm) htrace
  rcases hevent with rfl | rfl
  · exact hmust response hresponse
  · exact hmust response hresponse

/-- The head of a ten-byte file is blocked, flushed, and the connection closed without the body. -/
theorem get_cut_blockedGet :
    ∃ (trace before after : Run) (q : Io Unit) (http : Http) (response : Response),
      Runs (serve plainCtx 20 mogHttpInit) trace q ∧
      (∀ entry ∈ trace, calm entry.1 entry.2 = true) ∧
      trace = before ++ ⟨.note (.stepped .close http), ()⟩ :: after ∧
      (deliveryAfter before).document = some response ∧
      (deliveryAfter before).sent ≠ wireText response.head ++
        wireFile (deliveryAfter before).fd response.offset response.count := by
  have hcalm : ∀ entry ∈ (scripted 20 blockedGet).1, calm entry.1 entry.2 = true := by decide +kernel
  have hclose : ∃ split, splitAtClose (scripted 20 blockedGet).1 = some split ∧
      ∃ response, (deliveryAfter split.1).document = some response ∧
        (deliveryAfter split.1).sent ≠ wireText response.head ++
          wireFile (deliveryAfter split.1).fd response.offset response.count := by
    decide +kernel
  obtain ⟨⟨before, http, after⟩, hsplit, response, hresponse, hsent⟩ := hclose
  exact ⟨_, before, after, _, http, response, runs_scripted 20 blockedGet, hcalm,
    splitAtClose_eq hsplit, hresponse, hsent⟩

theorem get_delivered_iff_servedGet :
    ∃ (trace before after : Run) (http : Http) (response : Response),
      trace = before ++ ⟨.note (.stepped .close http), ()⟩ :: after ∧
      (deliveryAfter before).document = some response ∧
      Announces response.head response.count ∧ response.count = 10 ∧
      (deliveryAfter before).sent = wireText response.head ++
        wireFile (deliveryAfter before).fd response.offset response.count := by
  have hcalm : ∀ entry ∈ (scripted 20 servedGet).1, calm entry.1 entry.2 = true := by decide +kernel
  have hclose : ∃ split, splitAtClose (scripted 20 servedGet).1 = some split ∧
      ∃ response, (deliveryAfter split.1).document = some response ∧ response.count = 10 ∧
        (deliveryAfter split.1).blocked = false := by
    decide +kernel
  obtain ⟨⟨before, http, after⟩, hsplit, response, hresponse, hcount, hblocked⟩ := hclose
  have htrace := splitAtClose_eq hsplit
  obtain ⟨hannounces, hiff⟩ := get_delivered_iff plainCtx 20 _ before after _ http response _
    (runs_scripted 20 servedGet) hcalm htrace (Or.inr rfl) hresponse
  exact ⟨_, before, after, http, response, htrace, hresponse, hannounces, hcount,
    hiff.mpr (by simp [hblocked])⟩

end Cmogstored
