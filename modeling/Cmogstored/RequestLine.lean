import Cmogstored.ChunkScan

/-! The request line. Its grammar, read as a grammar, says where the path of a request is; the machine
determinises it, sets `path_tip` again on every leading slash and keeps both ends of the path in eight
bits. It finds the path the grammar means, and the only assertion that can fail in a head is the one on
those eight bits. -/

namespace Cmogstored

open List Scan

variable {buf : Bytes} {fields : Fields} {p : Nat} {c : Byte} {act onError : HeadAct} {cs : HttpCs}
  {Q : Fields → Nat → Prop}

/-! ### The grammar -/

/-- `GET`, `HEAD`, `PUT`, `DELETE` and `MKCOL` of `http_parser.rl`. -/
def methodWord : Method → Bytes
  | .none => []
  | .get => ascii "GET "
  | .head => ascii "HEAD "
  | .put => ascii "PUT "
  | .delete => ascii "DELETE "
  | .mkcol => ascii "MKCOL "

/-- `("http://" [^/]+)?` -/
def IsAuthority (bytes : Bytes) : Prop :=
  bytes = [] ∨ ∃ host, bytes = ascii "http://" ++ host ∧ host ≠ [] ∧ 47 ∉ host

/-- What stands before a path: the method, the authority if there is one, and redundant slashes. -/
structure Lead (method : Method) (bytes : Bytes) : Prop where
  known : method ≠ .none
  split : ∃ authority slashes, bytes = methodWord method ++ authority ++ slashes ∧
    IsAuthority authority ∧ ∀ c ∈ slashes, c = 47

/-- `mog_path`, from the last of the leading slashes on. -/
def IsPath (path : Bytes) : Prop :=
  ∃ chars, path = 47 :: chars ∧ chars.length ≤ 36 ∧ (∀ c ∈ chars, isPathChar c = true) ∧
    chars.head? ≠ some 47

/-- The path of the request in `buf` is where the fields say. -/
structure TargetIn (buf : Bytes) (fields : Fields) : Prop where
  lead : Lead fields.httpMethod (buf.take fields.pathTip)
  path : IsPath ((buf.take fields.pathEnd).drop fields.pathTip)
  space : buf[fields.pathEnd]? = some SP

theorem TargetIn.tip_lt (h : TargetIn buf fields) :
    fields.pathTip < fields.pathEnd := by
  obtain ⟨chars, hpath, -⟩ := h.path
  have hlength := congrArg List.length hpath
  simp only [length_drop, length_take, length_cons] at hlength
  omega

/-- A leading slash, or the blank behind the path, stands behind byte 255. -/
def Overlong (buf : Bytes) : Prop :=
  ∃ method p, 255 < p ∧
    (Lead method (buf.take p) ∧ buf[p]? = some 47 ∨
      ∃ tip, Lead method (buf.take tip) ∧ IsPath ((buf.take p).drop tip) ∧ buf[p]? = some SP)

/-! ### The machine on the request line -/

theorem wordNext_cases (rest : Bytes) (c : Byte) (more : Bytes → HttpCs) (last : HeadAct × HttpCs)
    (onError : HeadAct) :
    (∃ rest', rest = c :: rest' ∧ wordNext rest c more last onError = (.keep, more rest')) ∨
    rest = [c] ∧ wordNext rest c more last onError = last ∨
    wordNext rest c more last onError = (onError, .error) := by
  unfold wordNext
  split
  · exact Or.inr (Or.inr rfl)
  · split
    · rename_i expected rest hc
      obtain rfl : c = expected := by simpa using hc
      split
      · rename_i hempty
        obtain rfl : rest = [] := by simpa using hempty
        exact Or.inr (Or.inl ⟨rfl, rfl⟩)
      · exact Or.inl ⟨rest, rfl, rfl⟩
    · exact Or.inr (Or.inr rfl)

theorem httpNext_start (c : Byte) :
    (∃ method rest, httpNext .start c = (.method method, .method rest) ∧ method ≠ .none ∧
      c :: rest = methodWord method) ∨
    httpNext .start c = (.reject, .error) := by
  dsimp only [httpNext]
  (repeat' split) <;> first
    | exact Or.inr rfl
    | (rename_i hc
       obtain rfl := eq_of_beq hc
       exact Or.inl ⟨_, _, rfl, by simp, rfl⟩)

theorem httpNext_target (c : Byte) :
    httpNext .target c = (.pathTip, .path 0) ∧ c = 47 ∨
    httpNext .target c = (.keep, .scheme (ascii "ttp://")) ∧ c = 104 ∨
    httpNext .target c = (.reject, .error) := by
  dsimp only [httpNext]
  (repeat' split) <;> simp_all

theorem httpNext_hostStart (c : Byte) :
    httpNext .hostStart c = (.keep, .host) ∧ c ≠ 47 ∨ httpNext .hostStart c = (.reject, .error) := by
  dsimp only [httpNext]
  split <;> simp_all

theorem httpNext_host (c : Byte) :
    httpNext .host c = (.pathTip, .path 0) ∧ c = 47 ∨ httpNext .host c = (.keep, .host) ∧ c ≠ 47 := by
  dsimp only [httpNext]
  split <;> simp_all

theorem httpNext_path (count : Nat) (c : Byte) :
    httpNext (.path count) c = (.pathEnd, .version (ascii "HTTP/1.")) ∧ c = SP ∨
    httpNext (.path count) c = (.pathTip, .path 0) ∧ count = 0 ∧ c = 47 ∨
    httpNext (.path count) c = (.keep, .path (count + 1)) ∧ count < 36 ∧ isPathChar c = true ∧
      (count = 0 → c ≠ 47) ∨
    httpNext (.path count) c = (.reject, .error) := by
  dsimp only [httpNext]
  (repeat' split) <;> simp_all

theorem eq_of_toU8 {n : Nat} (h : toU8 p = some n) : n = p ∧ p ≤ 255 := by
  unfold toU8 at h
  split at h
  · exact ⟨(Option.some.inj h).symm, ‹_›⟩
  · cases h

theorem lt_of_toU8 (h : toU8 p = none) : 255 < p := by
  unfold toU8 at h
  split at h
  · cases h
  · omega

theorem take_succ (hc : buf[p]? = some c) :
    buf.take (p + 1) = buf.take p ++ [c] := by
  rw [take_add_one, hc, Option.toList_some]

/-- What the bytes before position `p` are, at each state of the request line. -/
def AtTarget (buf : Bytes) (fields : Fields) (p : Nat) : Prop :=
  match fields.cs with
  | .start => p = 0
  | .method rest =>
    fields.httpMethod ≠ .none ∧ buf.take p ++ rest = methodWord fields.httpMethod
  | .target => fields.httpMethod ≠ .none ∧ buf.take p = methodWord fields.httpMethod
  | .scheme rest =>
    fields.httpMethod ≠ .none ∧
      buf.take p ++ rest = methodWord fields.httpMethod ++ ascii "http://"
  | .hostStart =>
    fields.httpMethod ≠ .none ∧ buf.take p = methodWord fields.httpMethod ++ ascii "http://"
  | .host =>
    fields.httpMethod ≠ .none ∧ ∃ host, host ≠ [] ∧ 47 ∉ host ∧
      buf.take p = methodWord fields.httpMethod ++ (ascii "http://" ++ host)
  | .path count =>
    Lead fields.httpMethod (buf.take fields.pathTip) ∧ fields.pathTip < p ∧
      ∃ chars, (buf.take p).drop fields.pathTip = 47 :: chars ∧ chars.length = count ∧ count ≤ 36 ∧
        (∀ c ∈ chars, isPathChar c = true) ∧ chars.head? ≠ some 47
  | _ => TargetIn buf fields

/-- A leading slash opens the path, if its position fits. -/
theorem tip_leads {R : Outcome Fields Halt → Prop}
    (hlead : Lead fields.httpMethod (buf.take p)) (hc : buf[p]? = some 47)
    (hfail : Overlong buf → R .failed) :
    (match toU8 p with
      | some tip => Move.goto { fields with cs := .path 0, pathTip := tip } (p + 1)
      | none => .fail).Leads (AtTarget buf) R := by
  split
  · rename_i tip htip
    obtain ⟨rfl, -⟩ := eq_of_toU8 htip
    refine ⟨hlead, Nat.lt_succ_self _, [], ?_, rfl, Nat.zero_le _, by simp, by simp⟩
    rw [take_succ_drop hc (Nat.le_refl _), drop_take_self]
    rfl
  · rename_i htip
    exact hfail ⟨fields.httpMethod, p, lt_of_toU8 htip, Or.inl ⟨hlead, hc⟩⟩

/-- A step of the request line up to the blank behind the path. -/
theorem headStep_target
    {R : Outcome Fields Halt → Prop} (h : AtTarget buf fields p) (hc : buf[p]? = some c)
    (hbefore : fields.cs.afterPath = false) (hfail : Overlong buf → R .failed)
    (hreject : ∀ fields p, R (.halted fields p .reject)) :
    (headStep buf fields p c).Leads (AtTarget buf) R := by
  have hp := (List.getElem?_eq_some_iff.mp hc).1
  have htake := take_succ hc
  unfold AtTarget at h
  cases hcs : fields.cs <;> rw [hcs] at h hbefore <;> try exact Bool.noConfusion hbefore
  all_goals dsimp only at h
  case start =>
    subst h
    rcases httpNext_start c with ⟨method, rest, hnext, hmethod, hword⟩ | hnext <;>
      simp only [headStep, hcs, hnext]
    · refine ⟨hmethod, ?_⟩
      rw [htake]
      exact hword
    · exact hreject _ _
  case method rest =>
    obtain ⟨hmethod, hword⟩ := h
    rcases wordNext_cases rest c .method (.keep, .target) .reject with
      ⟨rest', rfl, hnext⟩ | ⟨rfl, hnext⟩ | hnext <;> simp only [headStep, hcs, httpNext, hnext]
    · refine ⟨hmethod, ?_⟩
      rw [htake, append_assoc]
      exact hword
    · exact ⟨hmethod, htake.trans hword⟩
    · exact hreject _ _
  case target =>
    obtain ⟨hmethod, hword⟩ := h
    rcases httpNext_target c with ⟨hnext, rfl⟩ | ⟨hnext, rfl⟩ | hnext <;>
      simp only [headStep, hcs, hnext]
    · exact tip_leads ⟨hmethod, [], [], by simpa using hword, Or.inl rfl, by simp⟩ hc hfail
    · refine ⟨hmethod, ?_⟩
      rw [htake, hword, append_assoc]
      rfl
    · exact hreject _ _
  case scheme rest =>
    obtain ⟨hmethod, hword⟩ := h
    rcases wordNext_cases rest c .scheme (.keep, .hostStart) .reject with
      ⟨rest', rfl, hnext⟩ | ⟨rfl, hnext⟩ | hnext <;> simp only [headStep, hcs, httpNext, hnext]
    · refine ⟨hmethod, ?_⟩
      rw [htake, append_assoc]
      exact hword
    · exact ⟨hmethod, htake.trans hword⟩
    · exact hreject _ _
  case hostStart =>
    obtain ⟨hmethod, hword⟩ := h
    rcases httpNext_hostStart c with ⟨hnext, hslash⟩ | hnext <;> simp only [headStep, hcs, hnext]
    · refine ⟨hmethod, [c], by simp, by simpa using fun heq => hslash heq.symm, ?_⟩
      rw [htake, hword, append_assoc]
    · exact hreject _ _
  case host =>
    obtain ⟨hmethod, host, hne, hnot, hword⟩ := h
    rcases httpNext_host c with ⟨hnext, rfl⟩ | ⟨hnext, hslash⟩ <;> simp only [headStep, hcs, hnext]
    · exact tip_leads ⟨hmethod, _, [], by rw [hword, append_nil], Or.inr ⟨host, rfl, hne, hnot⟩,
        by simp⟩ hc hfail
    · refine ⟨hmethod, host ++ [c], by simp, ?_, ?_⟩
      · rw [mem_append, mem_singleton, not_or]
        exact ⟨hnot, fun heq => hslash heq.symm⟩
      · rw [htake, hword]
        simp only [append_assoc]
  case path count =>
    obtain ⟨hlead, hlt, chars, hpath, hcount, hle, hall, hfirst⟩ := h
    rcases httpNext_path count c with
      ⟨hnext, rfl⟩ | ⟨hnext, hzero, rfl⟩ | ⟨hnext, hmore, hchar, hslash⟩ | hnext <;>
      simp only [headStep, hcs, hnext]
    · have hispath : IsPath ((buf.take p).drop fields.pathTip) :=
        ⟨chars, hpath, by omega, hall, hfirst⟩
      split
      · rename_i tip htip
        obtain ⟨rfl, -⟩ := eq_of_toU8 htip
        exact ⟨hlead, hispath, hc⟩
      · rename_i htip
        exact hfail ⟨fields.httpMethod, p, lt_of_toU8 htip, Or.inr ⟨fields.pathTip, hlead, hispath, hc⟩⟩
    · -- all there was of a path is one more leading slash
      obtain rfl : chars = [] := eq_nil_of_length_eq_zero (hcount.trans hzero)
      have hone : buf.take p = buf.take fields.pathTip ++ [47] := by
        rw [← hpath]
        conv_lhs => rw [← take_append_drop fields.pathTip (buf.take p)]
        rw [take_take, Nat.min_eq_left (by omega)]
      obtain ⟨authority, slashes, hsplit, hauthority, hslashes⟩ := hlead.split
      refine tip_leads ⟨hlead.known, authority, slashes ++ [47], ?_, hauthority, ?_⟩ hc hfail
      · rw [hone, hsplit]
        simp only [append_assoc]
      · simpa [or_imp, forall_and] using hslashes
    · refine ⟨hlead, by show fields.pathTip < p + 1; omega, chars ++ [c], ?_, by simp [hcount], hmore, ?_, ?_⟩
      · show (buf.take (p + 1)).drop fields.pathTip = _
        rw [take_succ_drop hc (by omega), hpath]
        rfl
      · intro b hb
        rcases mem_append.mp hb with hb | hb
        · exact hall b hb
        · rw [mem_singleton.mp hb]
          exact hchar
      · cases chars with
        | nil =>
          have := hslash hcount.symm
          simpa using this
        | cons first chars => simpa using hfirst
    · exact hreject _ _

/-! ### The machine on the headers -/

/-- The request line is not complete. -/
def HttpCs.inRequest : HttpCs → Bool
  | .version _ => true
  | .minor => true
  | .requestCr => true
  | .requestLf => true
  | cs => !cs.afterPath

/-- Between the first digit of a `Content-MD5` and its decoding. -/
def HttpCs.inDigest : HttpCs → Bool
  | .md5 at_ => at_.inDigest
  | _ => false

def HttpCs.isMd5 : HttpCs → Bool
  | .md5 _ => true
  | _ => false

/-- A transition that has nothing to do with a digest, and ends a line on an `LF` only. -/
structure PlainNext (c : Byte) (next : HeadAct × HttpCs) : Prop where
  act : next.1 ≠ .decode
  cs : next.2.inDigest = false
  line : next.1 = .lineEnd ∨ next.1 = .hasRange → c = LF

/-- Actions that any byte may have. -/
def HeadAct.anywhere : HeadAct → Bool
  | .decode => false
  | .lineEnd => false
  | .hasRange => false
  | _ => true

theorem plainNext (hact : act.anywhere = true)
    (hcs : cs.inDigest = false) : PlainNext c (act, cs) := by
  refine ⟨?_, hcs, ?_⟩
  · rintro rfl
    cases hact
  · rintro (rfl | rfl) <;> cases hact

theorem fieldNames_noDigest : ∀ entry ∈ fieldNames, entry.2.inDigest = false := by decide

theorem nameNext_plain (seen : Bytes) (c : Byte) (h : onError.anywhere = true) :
    PlainNext c (nameNext seen c onError) := by
  unfold nameNext
  dsimp only
  split
  · rename_i entry hentry
    exact plainNext rfl (fieldNames_noDigest entry (mem_of_find?_eq_some hentry))
  · split
    · exact plainNext rfl rfl
    · exact plainNext h rfl

theorem headersNext_plain (c : Byte) (h : onError.anywhere = true) :
    PlainNext c (headersNext c onError) := by
  unfold headersNext
  split
  · exact plainNext rfl rfl
  · exact nameNext_plain [] c h

theorem wordNext_plain (rest : Bytes) (d : Byte) {more : Bytes → HttpCs}
    {last : HttpCs} (hmore : ∀ rest, (more rest).inDigest = false) (hact : act.anywhere = true)
    (hlast : last.inDigest = false) (h : onError.anywhere = true) :
    PlainNext c (wordNext rest d more (act, last) onError) := by
  rcases wordNext_cases rest d more (act, last) onError with ⟨rest', -, hnext⟩ | ⟨-, hnext⟩ | hnext <;>
    rw [hnext]
  · exact plainNext rfl (hmore rest')
  · exact plainNext hact hlast
  · exact plainNext h rfl

theorem lineNext_plain (hc : (c == LF) = true)
    (hact : act ≠ .decode) (hcs : cs.inDigest = false) : PlainNext c (act, cs) :=
  ⟨hact, hcs, fun _ => eq_of_beq hc⟩

theorem sepNext_plain (field : Field) (at_ : SepCs) (c : Byte) : PlainNext c (sepNext field at_ c) := by
  cases field <;> cases at_ <;> dsimp only [sepNext, valueNext] <;> (repeat' split) <;>
    first | exact plainNext rfl rfl | exact lineNext_plain ‹_› (by simp) rfl

theorem ignoredHeadNext_plain (at_ : IgnoredCs) (c : Byte) : PlainNext c (ignoredHeadNext at_ c) := by
  unfold ignoredHeadNext
  rcases ignoredNext_cases at_ c with ⟨at', hnext, -⟩ | ⟨hnext, -, rfl⟩ | ⟨hnext, -, rfl⟩ | hnext <;>
    rw [hnext]
  · exact plainNext rfl rfl
  · exact lineNext_plain rfl (by simp) rfl
  · exact lineNext_plain rfl (by simp) rfl
  · exact plainNext rfl rfl

/-- Outside a `Content-MD5` field no digest is read. -/
theorem httpNext_plain (c : Byte) (h : cs.isMd5 = false) : PlainNext c (httpNext cs c) := by
  cases cs with
  | md5 at_ => cases h
  | name seen => exact nameNext_plain seen c rfl
  | sep field at_ => exact sepNext_plain field at_ c
  | ignored at_ => exact ignoredHeadNext_plain at_ c
  | headers => exact headersNext_plain c rfl
  | headersAfterMd5 => exact headersNext_plain c rfl
  | method rest => exact wordNext_plain rest c (fun _ => rfl) rfl rfl rfl
  | scheme rest => exact wordNext_plain rest c (fun _ => rfl) rfl rfl rfl
  | version rest => exact wordNext_plain rest c (fun _ => rfl) rfl rfl rfl
  | connectionValue keepAlive rest => exact wordNext_plain rest _ (fun _ => rfl) rfl rfl rfl
  | contentRangeUnit rest => exact wordNext_plain rest c (fun _ => rfl) rfl rfl rfl
  | rangeUnit rest => exact wordNext_plain rest c (fun _ => rfl) rfl rfl rfl
  | chunkedValue rest => exact wordNext_plain rest _ (fun _ => rfl) rfl rfl rfl
  | _ =>
    dsimp only [httpNext, eorNext, trailerMd5Next]
    (repeat' split) <;> first | exact plainNext rfl rfl | exact lineNext_plain ‹_› (by simp) rfl

/-- The rest of the request line leads to the headers and sets nothing but the version. -/
theorem httpNext_inRequest (c : Byte) (hafter : cs.afterPath = true)
    (h : cs.inRequest = true) :
    (∃ act cs', httpNext cs c = (act, cs') ∧ (act = .keep ∨ ∃ value, act = .persistent value) ∧
      cs'.afterPath = true ∧ cs'.inRequest = true ∧ cs'.inDigest = false) ∨
    httpNext cs c = (.lineEnd, .headers) ∧ c = LF ∨ httpNext cs c = (.reject, .error) := by
  cases cs <;> first
    | exact Bool.noConfusion hafter
    | exact Bool.noConfusion h
    | skip
  case version rest =>
    rcases wordNext_cases rest c .version (.keep, .minor) .reject with
      ⟨rest', -, hnext⟩ | ⟨-, hnext⟩ | hnext
    · exact Or.inl ⟨_, _, hnext, Or.inl rfl, rfl, rfl, rfl⟩
    · exact Or.inl ⟨_, _, hnext, Or.inl rfl, rfl, rfl, rfl⟩
    · exact Or.inr (Or.inr hnext)
  case minor =>
    dsimp only [httpNext]
    split
    · exact Or.inl ⟨_, _, rfl, Or.inl rfl, rfl, rfl, rfl⟩
    split
    · exact Or.inl ⟨_, _, rfl, Or.inr ⟨_, rfl⟩, rfl, rfl, rfl⟩
    · exact Or.inr (Or.inr rfl)
  case requestCr =>
    dsimp only [httpNext]
    split
    · exact Or.inl ⟨_, _, rfl, Or.inl rfl, rfl, rfl, rfl⟩
    · exact Or.inr (Or.inr rfl)
  case requestLf =>
    dsimp only [httpNext]
    split
    · rename_i hc
      exact Or.inr (Or.inl ⟨rfl, eq_of_beq hc⟩)
    · exact Or.inr (Or.inr rfl)

/-- What the parser relies on at position `p`, besides the path. -/
structure HeadKnows (buf : Bytes) (fields : Fields) (p : Nat) : Prop where
  target : AtTarget buf fields p
  pos : fields.cs ≠ .start → 0 < p
  request : fields.lineEnd = 0 → fields.cs.inRequest = true
  lineEnd : 0 < fields.lineEnd → fields.lineEnd < p ∧ buf[fields.lineEnd]? = some LF
  digest : ∀ at_, fields.cs = .md5 at_ → at_.inDigest = true →
    fields.tmpTip ≤ p ∧ Md5Tail at_ ((buf.take p).drop fields.tmpTip)

/-- How a head may end: an assertion fails only on an overlong request line. -/
def HeadEnd (buf : Bytes) : Outcome Fields Halt → Prop
  | .failed => Overlong buf
  | .halted fields _ .done => TargetIn buf fields
  | _ => True

theorem atTarget_of_afterPath
    (h : fields.cs.afterPath = true) : AtTarget buf fields p ↔ TargetIn buf fields := by
  unfold AtTarget
  cases hcs : fields.cs <;> first | exact Iff.rfl | (rw [hcs] at h; cases h)

theorem TargetIn.congr {fields' : Fields} (h : TargetIn buf fields)
    (hmethod : fields'.httpMethod = fields.httpMethod) (htip : fields'.pathTip = fields.pathTip)
    (hend : fields'.pathEnd = fields.pathEnd) : TargetIn buf fields' := by
  refine ⟨?_, ?_, ?_⟩
  · rw [hmethod, htip]
    exact h.lead
  · rw [htip, hend]
    exact h.path
  · rw [hend]
    exact h.space

section Headers

variable {buf : Bytes} {fields fields' : Fields} {p : Nat} {c : Byte}

/-- On to the next byte of a line. -/
theorem HeadKnows.on (h : HeadKnows buf fields p) (hafter : fields.cs.afterPath = true)
    (hmethod : fields'.httpMethod = fields.httpMethod) (htip : fields'.pathTip = fields.pathTip)
    (hend : fields'.pathEnd = fields.pathEnd) (hafter' : fields'.cs.afterPath = true)
    (hline : fields'.lineEnd = fields.lineEnd)
    (hrequest : fields.lineEnd = 0 → fields'.cs.inRequest = true)
    (hdigest : ∀ at_, fields'.cs = .md5 at_ → at_.inDigest = true →
      fields'.tmpTip ≤ p + 1 ∧ Md5Tail at_ ((buf.take (p + 1)).drop fields'.tmpTip)) :
    HeadKnows buf fields' (p + 1) := by
  have htarget := (atTarget_of_afterPath hafter).mp h.target
  refine ⟨(atTarget_of_afterPath hafter').mpr (htarget.congr hmethod htip hend), fun _ => Nat.succ_pos p,
    fun hzero => hrequest (hline.symm.trans hzero), fun hpos => ?_, hdigest⟩
  rw [hline] at hpos ⊢
  obtain ⟨hlt, hlf⟩ := h.lineEnd hpos
  exact ⟨Nat.lt_succ_of_lt hlt, hlf⟩

/-- On to the next line. -/
theorem HeadKnows.nextLine (h : HeadKnows buf fields p) (hafter : fields.cs.afterPath = true)
    (hmethod : fields'.httpMethod = fields.httpMethod) (htip : fields'.pathTip = fields.pathTip)
    (hend : fields'.pathEnd = fields.pathEnd) (hafter' : fields'.cs.afterPath = true)
    (hline : fields'.lineEnd = p) (hc : buf[p]? = some LF) (hdigest : fields'.cs.inDigest = false) :
    HeadKnows buf fields' (p + 1) := by
  have htarget := (atTarget_of_afterPath hafter).mp h.target
  have hpos : 0 < p := h.pos fun hstart => by
    rw [hstart] at hafter
    cases hafter
  refine ⟨(atTarget_of_afterPath hafter').mpr (htarget.congr hmethod htip hend), fun _ => Nat.succ_pos p,
    fun hzero => ?_, fun _ => ?_, fun at_ hcs hin => ?_⟩
  · omega
  · rw [hline]
    exact ⟨Nat.lt_succ_self p, hc⟩
  · rw [hcs] at hdigest
    exact Bool.noConfusion (hin.symm.trans hdigest)

/-- Back to the start of the line, to ignore it. -/
theorem HeadKnows.back (h : HeadKnows buf fields p) (hafter : fields.cs.afterPath = true)
    (hpos : 0 < fields.lineEnd) (hp : p < buf.length) :
    (if 0 < fields.lineEnd ∧ buf[fields.lineEnd]? = some LF ∧ fields.lineEnd + 1 ≤ buf.length then
      Move.goto { fields with cs := .ignored .nameStart } (fields.lineEnd + 2)
    else .fail).Leads (HeadKnows buf) (HeadEnd buf) := by
  obtain ⟨hlt, hlf⟩ := h.lineEnd hpos
  rw [if_pos ⟨hpos, hlf, by omega⟩]
  have htarget := (atTarget_of_afterPath hafter).mp h.target
  exact ⟨htarget.congr rfl rfl rfl, fun _ => Nat.succ_pos _, fun hzero => absurd hzero (by
    show fields.lineEnd ≠ 0
    omega), fun _ => ⟨by show fields.lineEnd < fields.lineEnd + 2; omega, hlf⟩, fun at_ hcs => by cases hcs⟩

/-- A byte of the request line behind the path. -/
theorem headStep_version (h : HeadKnows buf fields p) (hc : buf[p]? = some c)
    (hafter : fields.cs.afterPath = true) (hrequest : fields.cs.inRequest = true)
    (hsmall : buf.length ≤ 65535) :
    (headStep buf fields p c).Leads (HeadKnows buf) (HeadEnd buf) := by
  have hp := (List.getElem?_eq_some_iff.mp hc).1
  rcases httpNext_inRequest c hafter hrequest with
    ⟨act, cs, hnext, hact, hafter', hrequest', hdigest⟩ | ⟨hnext, rfl⟩ | hnext
  · have hnot : ∀ at_, cs = .md5 at_ → at_.inDigest = true → False := by
      rintro at_ rfl hin
      exact Bool.noConfusion (hin.symm.trans hdigest)
    rcases hact with rfl | ⟨value, rfl⟩ <;> simp only [headStep, hnext]
    · exact h.on hafter rfl rfl rfl hafter' rfl (fun _ => hrequest') fun at_ hcs hin =>
        (hnot at_ hcs hin).elim
    · exact h.on hafter rfl rfl rfl hafter' rfl (fun _ => hrequest') fun at_ hcs hin =>
        (hnot at_ hcs hin).elim
  · simp only [headStep, hnext, toU16_of_lt hp hsmall]
    exact h.nextLine hafter rfl rfl rfl rfl rfl hc rfl
  · simp only [headStep, hnext]
    trivial

/-- A byte of a `Content-MD5` field. -/
theorem headStep_md5 {at_ : Md5Cs} (h : HeadKnows buf fields p) (hc : buf[p]? = some c)
    (hcs : fields.cs = .md5 at_) (hpos : 0 < fields.lineEnd) (hsmall : buf.length ≤ 65535) :
    (headStep buf fields p c).Leads (HeadKnows buf) (HeadEnd buf) := by
  have hp := (List.getElem?_eq_some_iff.mp hc).1
  have hafter : fields.cs.afterPath = true := by rw [hcs]; rfl
  have hline : fields.lineEnd = 0 → ∀ {A : Prop}, A := fun hzero => absurd hzero (by omega)
  have htail := h.digest at_ hcs
  rcases md5Next_cases at_ c with ⟨at', hnext, -, -, hin, hkeep⟩ | ⟨hnext, hbase⟩ |
    ⟨at', hnext, rfl, -, hout, -⟩ | ⟨hnext, rfl, rfl⟩ | ⟨hnext, rfl, rfl⟩ | hact | hact
  · simp only [headStep, hcs, httpNext, md5HeadNext, hnext]
    refine h.on hafter rfl rfl rfl rfl rfl (fun hzero => hline hzero) fun at'' hcs' hin' => ?_
    obtain rfl := HttpCs.md5.inj hcs'
    obtain ⟨htip, hseen⟩ := htail (hin hin')
    refine ⟨Nat.le_succ_of_le htip, ?_⟩
    show Md5Tail _ ((buf.take (p + 1)).drop fields.tmpTip)
    rw [take_succ_drop hc htip]
    exact hkeep _ hseen
  · simp only [headStep, hcs, httpNext, md5HeadNext, hnext, toU16_of_lt hp hsmall]
    refine h.on hafter rfl rfl rfl rfl rfl (fun hzero => hline hzero) fun at'' hcs' _ => ?_
    obtain rfl := HttpCs.md5.inj hcs'
    refine ⟨Nat.le_succ p, ?_⟩
    show Md5Tail _ ((buf.take (p + 1)).drop p)
    rw [take_succ_drop hc (Nat.le_refl p), drop_take_self]
    simpa [Md5Tail] using hbase
  · obtain ⟨htip, digits, hdigits, hlength, hall⟩ := htail rfl
    obtain ⟨out, hout', houtLength⟩ := base64Decode_padded 5 digits hlength hall
    simp only [headStep, hcs, httpNext, md5HeadNext, hnext, toU16_of_lt hp hsmall, hdigits, hout']
    rw [if_pos ⟨htip, by omega⟩]
    refine h.on hafter rfl rfl rfl rfl rfl (fun hzero => hline hzero) fun at'' hcs' hin' => ?_
    obtain rfl := HttpCs.md5.inj hcs'
    exact Bool.noConfusion (hin'.symm.trans hout)
  · simp only [headStep, hcs, httpNext, md5HeadNext, hnext, toU16_of_lt hp hsmall]
    exact h.nextLine hafter rfl rfl rfl rfl rfl hc rfl
  · simp only [headStep, hcs, httpNext, md5HeadNext, hnext, toU16_of_lt hp hsmall]
    exact h.nextLine hafter rfl rfl rfl rfl rfl hc rfl
  · have hnext : md5HeadNext at_ c = (.ignoreLine, .error) := by
      rw [md5HeadNext, hact]
    simp only [headStep, hcs, httpNext, hnext]
    exact h.back hafter hpos hp
  · have hnext : md5HeadNext at_ c = (.md5Err, .error) := by
      rw [md5HeadNext, hact]
    simp only [headStep, hcs, httpNext, hnext]
    split
    · exact h.back hafter hpos hp
    · trivial

/-- Behind the path the machine stays behind it and leaves it alone. -/
theorem httpNext_afterPath (c : Byte) (h : cs.afterPath = true) :
    (httpNext cs c).2.afterPath = true ∧ (httpNext cs c).1.setsTarget = false := by
  by_cases hignored : cs.isIgnored = true
  · obtain ⟨at_, rfl⟩ : ∃ at_, cs = .ignored at_ := by
      cases cs <;> simp_all [HttpCs.isIgnored]
    dsimp only [httpNext, ignoredHeadNext]
    split <;> exact ⟨rfl, rfl⟩
  · have hnext := httpNext_inHeaders c (by simpa using hignored) h
    exact ⟨hnext.afterPath, hnext.act⟩

/-- A byte of any other header. -/
theorem headStep_plain (h : HeadKnows buf fields p) (hc : buf[p]? = some c)
    (hafter : fields.cs.afterPath = true) (hmd5 : fields.cs.isMd5 = false) (hpos : 0 < fields.lineEnd)
    (hsmall : buf.length ≤ 65535) :
    (headStep buf fields p c).Leads (HeadKnows buf) (HeadEnd buf) := by
  have hp := (List.getElem?_eq_some_iff.mp hc).1
  have hplain := httpNext_plain c hmd5
  obtain ⟨hafter', hact⟩ := httpNext_afterPath c hafter
  rcases hnext : httpNext fields.cs c with ⟨act, cs⟩
  rw [hnext] at hplain hafter' hact
  have hon : ∀ fields' : Fields, fields'.httpMethod = fields.httpMethod →
      fields'.pathTip = fields.pathTip → fields'.pathEnd = fields.pathEnd → fields'.cs = cs →
      fields'.lineEnd = fields.lineEnd → HeadKnows buf fields' (p + 1) := by
    intro fields' hmethod htip hend hcs hline
    refine h.on hafter hmethod htip hend (hcs ▸ hafter') hline (fun hzero => absurd hzero (by omega)) ?_
    intro at_ hat hin
    have hdigest : cs.inDigest = false := hplain.cs
    rw [← hcs, hat] at hdigest
    exact Bool.noConfusion (hin.symm.trans hdigest)
  have hnextLine : c = LF → ∀ fields' : Fields, fields'.httpMethod = fields.httpMethod →
      fields'.pathTip = fields.pathTip → fields'.pathEnd = fields.pathEnd → fields'.cs = cs →
      fields'.lineEnd = p → HeadKnows buf fields' (p + 1) := by
    rintro rfl fields' hmethod htip hend hcs hline
    exact h.nextLine hafter hmethod htip hend (hcs ▸ hafter') hline hc (hcs ▸ hplain.cs)
  simp only [headStep, hnext]
  cases act <;> try exact Bool.noConfusion hact
  case decode => exact absurd rfl hplain.act
  case ignoreLine => exact h.back hafter hpos hp
  case md5Err =>
    dsimp only
    split
    · exact h.back hafter hpos hp
    · trivial
  case lineEnd =>
    dsimp only
    rw [toU16_of_lt hp hsmall]
    exact hnextLine (hplain.line (Or.inl rfl)) _ rfl rfl rfl rfl rfl
  case hasRange =>
    dsimp only
    rw [toU16_of_lt hp hsmall]
    exact hnextLine (hplain.line (Or.inr rfl)) _ rfl rfl rfl rfl rfl
  case tmpTip =>
    dsimp only
    rw [toU16_of_lt hp hsmall]
    exact hon _ rfl rfl rfl rfl rfl
  case reallyDone => exact ((atTarget_of_afterPath hafter).mp h.target).congr rfl rfl rfl
  all_goals dsimp only
  all_goals first
    | exact hon _ rfl rfl rfl rfl rfl
    | trivial
    | (split
       · exact hon _ rfl rfl rfl rfl rfl
       · trivial)

/-- Up to the path the machine stays in the request line. -/
theorem httpNext_before (c : Byte) (h : cs.afterPath = false) :
    (∃ act cs', httpNext cs c = (act, cs') ∧ (act = .keep ∨ act.setsTarget = true) ∧
      cs'.inRequest = true ∧ cs'.isMd5 = false) ∨
    httpNext cs c = (.reject, .error) := by
  have hword : ∀ (rest : Bytes) (more : Bytes → HttpCs) (last : HttpCs),
      (∀ rest, (more rest).inRequest = true ∧ (more rest).isMd5 = false) →
      last.inRequest = true ∧ last.isMd5 = false →
      (∃ act cs', wordNext rest c more (.keep, last) .reject = (act, cs') ∧
        (act = .keep ∨ act.setsTarget = true) ∧ cs'.inRequest = true ∧ cs'.isMd5 = false) ∨
      wordNext rest c more (.keep, last) .reject = (.reject, .error) := by
    intro rest more last hmore hlast
    rcases wordNext_cases rest c more (.keep, last) .reject with ⟨rest', -, hnext⟩ | ⟨-, hnext⟩ | hnext
    · exact Or.inl ⟨_, _, hnext, Or.inl rfl, hmore rest'⟩
    · exact Or.inl ⟨_, _, hnext, Or.inl rfl, hlast⟩
    · exact Or.inr hnext
  cases cs <;> try exact Bool.noConfusion h
  case start =>
    rcases httpNext_start c with ⟨method, rest, hnext, -⟩ | hnext
    · exact Or.inl ⟨_, _, hnext, Or.inr rfl, rfl, rfl⟩
    · exact Or.inr hnext
  case method rest => exact hword rest .method .target (fun _ => ⟨rfl, rfl⟩) ⟨rfl, rfl⟩
  case scheme rest => exact hword rest .scheme .hostStart (fun _ => ⟨rfl, rfl⟩) ⟨rfl, rfl⟩
  case target =>
    rcases httpNext_target c with ⟨hnext, -⟩ | ⟨hnext, -⟩ | hnext
    · exact Or.inl ⟨_, _, hnext, Or.inr rfl, rfl, rfl⟩
    · exact Or.inl ⟨_, _, hnext, Or.inl rfl, rfl, rfl⟩
    · exact Or.inr hnext
  case hostStart =>
    rcases httpNext_hostStart c with ⟨hnext, -⟩ | hnext
    · exact Or.inl ⟨_, _, hnext, Or.inl rfl, rfl, rfl⟩
    · exact Or.inr hnext
  case host =>
    rcases httpNext_host c with ⟨hnext, -⟩ | ⟨hnext, -⟩
    · exact Or.inl ⟨_, _, hnext, Or.inr rfl, rfl, rfl⟩
    · exact Or.inl ⟨_, _, hnext, Or.inl rfl, rfl, rfl⟩
  case path count =>
    rcases httpNext_path count c with ⟨hnext, -⟩ | ⟨hnext, -⟩ | ⟨hnext, -⟩ | hnext
    · exact Or.inl ⟨_, _, hnext, Or.inr rfl, rfl, rfl⟩
    · exact Or.inl ⟨_, _, hnext, Or.inr rfl, rfl, rfl⟩
    · exact Or.inl ⟨_, _, hnext, Or.inl rfl, rfl, rfl⟩
    · exact Or.inr hnext

theorem headStep_before (h : fields.cs.afterPath = false) :
    (headStep buf fields p c).Leads (fun fields' p' => p' = p + 1 ∧ fields'.lineEnd = fields.lineEnd ∧
      fields'.cs.inRequest = true ∧ fields'.cs.isMd5 = false) (fun _ => True) := by
  rcases httpNext_before c h with ⟨act, cs, hnext, hact, hcs⟩ | hnext <;> simp only [headStep, hnext]
  · cases act <;> dsimp only <;> first
      | exact ⟨rfl, rfl, hcs⟩
      | trivial
      | (split
         · exact ⟨rfl, rfl, hcs⟩
         · trivial)
  · trivial

/-- **A step of the head parser keeps what it relies on.** -/
theorem headStep_knows (hsmall : buf.length ≤ 65535) (h : HeadKnows buf fields p)
    (hc : buf[p]? = some c) : (headStep buf fields p c).Leads (HeadKnows buf) (HeadEnd buf) := by
  by_cases hafter : fields.cs.afterPath = true
  · by_cases hpos : 0 < fields.lineEnd
    · by_cases hmd5 : fields.cs.isMd5 = true
      · obtain ⟨at_, hcs⟩ : ∃ at_, fields.cs = .md5 at_ := by
          cases hcs : fields.cs <;> simp_all [HttpCs.isMd5]
        exact headStep_md5 h hc hcs hpos hsmall
      · exact headStep_plain h hc hafter (by simpa using hmd5) hpos hsmall
    · exact headStep_version h hc hafter (h.request (by omega)) hsmall
  · have hbefore : fields.cs.afterPath = false := by simpa using hafter
    refine (headStep_target (R := HeadEnd buf) h.target hc hbefore id (fun _ _ => trivial)).mono
      (headStep_before hbefore) ?_ fun _ hend _ => hend
    rintro fields' _ htarget ⟨rfl, hline, hrequest, hmd5⟩
    refine ⟨htarget, fun _ => Nat.succ_pos p, fun _ => hrequest, fun hpos => ?_, fun at_ hcs => ?_⟩
    · rw [hline] at hpos ⊢
      obtain ⟨hlt, hlf⟩ := h.lineEnd hpos
      exact ⟨Nat.lt_succ_of_lt hlt, hlf⟩
    · rw [hcs] at hmd5
      cases hmd5

end Headers

theorem headKnows_init (buf : Bytes) : HeadKnows buf .init 0 :=
  ⟨rfl, fun hstart => absurd rfl hstart, fun _ => rfl, fun hpos => absurd hpos (Nat.lt_irrefl 0),
    fun _ hcs => HttpCs.noConfusion hcs⟩

/-- **How a head ends**: the path of an accepted one is found, and an assertion fails only on an
overlong request line. -/
theorem headScan_end {outcome : Outcome Fields Halt} (hsmall : buf.length ≤ 65535)
    (h : Scans headStep buf .init 0 outcome) : HeadEnd buf outcome :=
  h.leads (fun _ _ _ hknows hc => headStep_knows hsmall hknows hc) (fun _ _ _ _ => trivial)
    (headKnows_init buf)

/-- The path is where the fields say as soon as it has been read, and stays there. -/
theorem headStep_keepsTarget
    (h : AtTarget buf fields p) (hc : buf[p]? = some c) :
    (headStep buf fields p c).Leads (AtTarget buf) fun outcome =>
      ∀ fields' p', outcome = .halted fields' p' .done → TargetIn buf fields' := by
  by_cases hafter : fields.cs.afterPath = true
  · have htarget := (atTarget_of_afterPath hafter).mp h
    obtain ⟨hafter', hact⟩ := httpNext_afterPath c hafter
    rcases hnext : httpNext fields.cs c with ⟨act, cs⟩
    rw [hnext] at hafter' hact
    have hon : ∀ fields' p', fields'.httpMethod = fields.httpMethod →
        fields'.pathTip = fields.pathTip → fields'.pathEnd = fields.pathEnd →
        fields'.cs.afterPath = true → AtTarget buf fields' p' :=
      fun fields' p' hmethod htip hend hcs =>
        (atTarget_of_afterPath hcs).mpr (htarget.congr hmethod htip hend)
    have hback : AtTarget buf { fields with cs := .ignored .nameStart } (fields.lineEnd + 2) :=
      htarget.congr rfl rfl rfl
    simp only [headStep, hnext]
    cases act <;> try exact Bool.noConfusion hact
    all_goals dsimp only
    case reallyDone =>
      rintro _ _ ⟨⟩
      exact htarget.congr rfl rfl rfl
    all_goals repeat' split
    all_goals first
      | exact hon _ _ rfl rfl rfl hafter'
      | exact hback
      | exact fun _ _ heq => by cases heq
  · exact headStep_target h hc (by simpa using hafter) (fun _ _ _ heq => by cases heq)
      fun _ _ _ _ heq => by cases heq

/-- **The path of an accepted head is found.** -/
theorem headScan_target
    (h : Scans headStep buf .init 0 (.halted fields p .done)) : TargetIn buf fields :=
  h.leads (fun _ _ _ htarget hc => headStep_keepsTarget htarget hc)
    (fun _ _ _ _ _ _ heq => by cases heq) (rfl : AtTarget buf .init 0) _ _ rfl

/-! ### Overlong request lines -/

section Overlong

variable {buf : Bytes}

/-- From `fields` at `p` the machine fails an assertion, or comes to a state `Q` at `p'`. -/
def FailsOr (buf : Bytes) (fields : Fields) (p : Nat) (Q : Fields → Nat → Prop) : Prop :=
  Scans headStep buf fields p .failed ∨ ∃ fields' p', Q fields' p' ∧
    ∀ outcome, Scans headStep buf fields' p' outcome → Scans headStep buf fields p outcome

theorem FailsOr.trans {R : Fields → Nat → Prop}
    (h : FailsOr buf fields p Q) (hnext : ∀ fields' p', Q fields' p' → FailsOr buf fields' p' R) :
    FailsOr buf fields p R := by
  rcases h with hfailed | ⟨fields', p', hQ, hscan⟩
  · exact Or.inl hfailed
  · rcases hnext fields' p' hQ with hfailed | ⟨fields'', p'', hR, hscan'⟩
    · exact Or.inl (hscan _ hfailed)
    · exact Or.inr ⟨fields'', p'', hR, fun outcome h => hscan outcome (hscan' outcome h)⟩

theorem failsOr_here (h : Q fields p) :
    FailsOr buf fields p Q := Or.inr ⟨fields, p, h, fun _ h => h⟩

theorem failsOr_goto {fields' : Fields} {p' : Nat}
    (hc : buf[p]? = some c) (hmove : headStep buf fields p c = .goto fields' p')
    (h : FailsOr buf fields' p' Q) : FailsOr buf fields p Q :=
  FailsOr.trans (Or.inr ⟨fields', p', rfl, fun _ hrest => .goto hc hmove hrest⟩ :
      FailsOr buf fields p fun fields'' p'' => (fields', p') = (fields'', p''))
    fun _ _ heq => by
      cases heq
      exact h

/-- A word of the request line. -/
theorem failsOr_word (more : Bytes → HttpCs) (last : HttpCs)
    (hnext : ∀ rest c, httpNext (more rest) c = wordNext rest c more (.keep, last) .reject)
    (rest : Bytes) (hcs : fields.cs = more rest) (hne : rest ≠ [])
    (hrest : rest <+: buf.drop p) :
    FailsOr buf fields p fun fields' p' =>
      fields' = { fields with cs := last } ∧ p' = p + rest.length := by
  induction rest generalizing fields p with
  | nil => exact absurd rfl hne
  | cons c rest ih =>
    obtain ⟨tail, htail⟩ := hrest
    have hc : buf[p]? = some c := by
      have := congrArg (fun bytes => bytes[0]?) htail
      simpa using this.symm
    have hrest' : rest <+: buf.drop (p + 1) := by
      refine ⟨tail, ?_⟩
      rw [← drop_drop, ← htail]
      rfl
    cases rest with
    | nil =>
      have hmove : headStep buf fields p c = .goto { fields with cs := last } (p + 1) := by
        simp only [headStep, hcs, hnext, wordNext, beq_self_eq_true, if_true, isEmpty_nil]
      exact failsOr_goto hc hmove (failsOr_here ⟨rfl, rfl⟩)
    | cons d rest =>
      have hmove : headStep buf fields p c = .goto { fields with cs := more (d :: rest) } (p + 1) := by
        simp only [headStep, hcs, hnext, wordNext, beq_self_eq_true, if_true, isEmpty_cons]
        rfl
      refine failsOr_goto hc hmove ((ih rfl (by simp) hrest').trans ?_)
      rintro _ _ ⟨rfl, rfl⟩
      exact failsOr_here ⟨rfl, by simp only [length_cons]; omega⟩

theorem head_of_prefix {rest : Bytes} (h : c :: rest <+: buf.drop p) :
    buf[p]? = some c ∧ rest <+: buf.drop (p + 1) := by
  obtain ⟨tail, htail⟩ := h
  refine ⟨?_, tail, ?_⟩
  · have := congrArg (fun bytes => bytes[0]?) htail
    simpa using this.symm
  · rw [← drop_drop, ← htail]
    rfl

theorem prefix_drop {first second : Bytes} (h : first ++ second <+: buf.drop p) :
    second <+: buf.drop (p + first.length) := by
  obtain ⟨tail, htail⟩ := h
  refine ⟨tail, ?_⟩
  rw [← drop_drop, ← htail, append_assoc, drop_left]

theorem failsOr_method {method : Method} (hne : method ≠ .none) (h : methodWord method <+: buf) :
    FailsOr buf .init 0 fun fields p => fields.cs = .target ∧ p = (methodWord method).length := by
  obtain ⟨c, rest, hword, hstart⟩ : ∃ c rest, methodWord method = c :: rest ∧ rest ≠ [] ∧
      httpNext .start c = (.method method, .method rest) := by
    cases method <;> first | exact absurd rfl hne | exact ⟨_, _, rfl, by decide, by decide⟩
  obtain ⟨hne', hnext⟩ := hstart
  rw [hword] at h ⊢
  obtain ⟨hc, hrest⟩ := head_of_prefix (p := 0) h
  have hmove : headStep buf .init 0 c =
      .goto { Fields.init with cs := .method rest, httpMethod := method } 1 := by
    simp only [headStep, Fields.init, hnext]
  refine failsOr_goto hc hmove ((failsOr_word .method .target (fun _ _ => rfl) rest rfl hne' hrest).trans ?_)
  rintro _ _ ⟨rfl, rfl⟩
  exact failsOr_here ⟨rfl, by simp only [length_cons]; omega⟩

/-- The host, to the slash that ends it. -/
theorem failsOr_host (host : Bytes) (hcs : fields.cs = .host)
    (hslash : 47 ∉ host) (h : host <+: buf.drop p) :
    FailsOr buf fields p fun fields' p' => fields'.cs = .host ∧ p' = p + host.length := by
  induction host generalizing p with
  | nil => exact failsOr_here ⟨hcs, rfl⟩
  | cons c host ih =>
    rw [mem_cons, not_or] at hslash
    obtain ⟨hc, hrest⟩ := head_of_prefix h
    have hbeq : (c == 47) = false := beq_false_of_ne fun heq => hslash.1 heq.symm
    have hmove : headStep buf fields p c = .goto fields (p + 1) := by
      simp only [headStep, hcs, httpNext, hbeq]
      simp [← hcs]
    refine failsOr_goto hc hmove ((ih hslash.2 hrest).trans ?_)
    rintro fields' p' ⟨hcs', rfl⟩
    exact failsOr_here ⟨hcs', by simp only [length_cons]; omega⟩

theorem failsOr_authority {authority : Bytes} (hauthority : IsAuthority authority)
    (hcs : fields.cs = .target) (h : authority <+: buf.drop p) :
    FailsOr buf fields p fun fields' p' =>
      (fields'.cs = .target ∨ fields'.cs = .host) ∧ p' = p + authority.length := by
  rcases hauthority with rfl | ⟨host, rfl, hne, hslash⟩
  · exact failsOr_here ⟨Or.inl hcs, rfl⟩
  · have hscheme : ascii "http://" = 104 :: ascii "ttp://" := rfl
    rw [hscheme, cons_append] at h ⊢
    obtain ⟨hc, hrest⟩ := head_of_prefix h
    have hmove : headStep buf fields p 104 =
        .goto { fields with cs := .scheme (ascii "ttp://") } (p + 1) := by
      simp only [headStep, hcs, httpNext]
      rfl
    refine failsOr_goto hc hmove ((failsOr_word .scheme .hostStart (fun _ _ => rfl)
      (ascii "ttp://") rfl (by decide) ((prefix_append _ host).trans hrest)).trans ?_)
    rintro _ _ ⟨rfl, rfl⟩
    obtain ⟨d, host, rfl⟩ := exists_cons_of_ne_nil hne
    rw [mem_cons, not_or] at hslash
    obtain ⟨hd, hhost⟩ := head_of_prefix (prefix_drop hrest)
    have hbeq : (d == 47) = false := beq_false_of_ne fun heq => hslash.1 heq.symm
    have hmove : headStep buf { fields with cs := .hostStart } (p + 1 + (ascii "ttp://").length) d =
        .goto { fields with cs := .host } (p + 1 + (ascii "ttp://").length + 1) := by
      simp only [headStep, httpNext, hbeq]
      rfl
    refine failsOr_goto hd hmove ((failsOr_host host rfl hslash.2 hhost).trans ?_)
    rintro fields' p' ⟨hcs', rfl⟩
    refine failsOr_here ⟨Or.inr hcs', ?_⟩
    simp only [length_cons, length_append]
    omega

/-- The leading slashes and the one that opens the path. -/
theorem failsOr_slashes (slashes : Bytes)
    (hcs : fields.cs = .target ∨ fields.cs = .host ∨ fields.cs = .path 0)
    (hall : ∀ c ∈ slashes, c = 47) (h : slashes ++ [47] <+: buf.drop p) :
    FailsOr buf fields p fun fields' p' =>
      p + slashes.length ≤ 255 ∧ fields'.cs = .path 0 ∧ p' = p + slashes.length + 1 := by
  have htip : buf[p]? = some 47 → headStep buf fields p 47 = match toU8 p with
      | some tip => .goto { fields with cs := .path 0, pathTip := tip } (p + 1)
      | none => .fail := by
    intro _
    rcases hcs with hcs | hcs | hcs <;> simp only [headStep, hcs, httpNext] <;> rfl
  induction slashes generalizing fields p with
  | nil =>
    obtain ⟨hc, -⟩ := head_of_prefix h
    have hmove := htip hc
    cases hp : toU8 p with
    | none =>
      rw [hp] at hmove
      exact Or.inl (.fail hc hmove)
    | some tip =>
      rw [hp] at hmove
      exact failsOr_goto hc hmove (failsOr_here ⟨(eq_of_toU8 hp).2, rfl, rfl⟩)
  | cons c slashes ih =>
    obtain rfl : c = 47 := hall c (mem_cons_self ..)
    obtain ⟨hc, hrest⟩ := head_of_prefix h
    have hmove := htip hc
    cases hp : toU8 p with
    | none =>
      rw [hp] at hmove
      exact Or.inl (.fail hc hmove)
    | some tip =>
      rw [hp] at hmove
      refine failsOr_goto hc hmove ((ih (Or.inr (Or.inr rfl))
        (fun d hd => hall d (mem_cons_of_mem _ hd)) hrest ?_).trans ?_)
      · intro _
        simp only [headStep, httpNext]
        rfl
      · rintro fields' p' ⟨hle, hcs', rfl⟩
        simp only [length_cons]
        exact failsOr_here ⟨by omega, hcs', by omega⟩

theorem headStep_pathChar {count : Nat} (p : Nat)
    (hcs : fields.cs = .path count) (hcount : count < 36) (hchar : isPathChar c = true) (hslash : count = 0 → c ≠ 47) :
    headStep buf fields p c = .goto { fields with cs := .path (count + 1) } (p + 1) := by
  have hspace : (c == SP) = false := by
    refine beq_false_of_ne ?_
    rintro rfl
    exact absurd hchar (by decide)
  have htip : (decide (count = 0) && c == 47) = false := by
    cases hzero : decide (count = 0) with
    | false => rfl
    | true => exact beq_false_of_ne (hslash (of_decide_eq_true hzero))
  have hmore : (decide (count < 36) && isPathChar c) = true := by simp [hcount, hchar]
  simp only [headStep, hcs, httpNext, hspace, htip, hmore]
  rfl

/-- The characters of the path. -/
theorem failsOr_path (chars : Bytes) {count : Nat} (hcs : fields.cs = .path count)
    (hcount : count + chars.length ≤ 36) (hchars : ∀ c ∈ chars, isPathChar c = true)
    (hslash : count = 0 → chars.head? ≠ some 47) (h : chars <+: buf.drop p) :
    FailsOr buf fields p fun fields' p' =>
      fields'.cs = .path (count + chars.length) ∧ p' = p + chars.length := by
  induction chars generalizing fields p count with
  | nil => exact failsOr_here ⟨hcs, rfl⟩
  | cons c chars ih =>
    obtain ⟨hc, hrest⟩ := head_of_prefix h
    rw [length_cons] at hcount
    have hmove : headStep buf fields p c = _ := headStep_pathChar p hcs (by omega)
      (hchars c (mem_cons_self ..)) fun hzero heq => hslash hzero (by rw [heq, List.head?_cons])
    have hnext : ({ fields with cs := .path (count + 1) } : Fields).cs = .path (count + 1) := rfl
    refine failsOr_goto hc hmove ((ih hnext (by omega)
      (fun d hd => hchars d (mem_cons_of_mem _ hd)) (by omega) hrest).trans ?_)
    rintro fields' p' ⟨hcs', rfl⟩
    rw [length_cons]
    exact failsOr_here ⟨by rw [hcs', Nat.add_right_comm, Nat.add_assoc], by omega⟩

theorem failsOr_lead {method : Method} {tip : Nat} (hlead : Lead method (buf.take tip))
    (hc : buf[tip]? = some 47) :
    FailsOr buf .init 0 fun fields p => tip ≤ 255 ∧ fields.cs = .path 0 ∧ p = tip + 1 := by
  obtain ⟨authority, slashes, hsplit, hauthority, hslashes⟩ := hlead.split
  have htip := (List.getElem?_eq_some_iff.mp hc).1
  have hlength : tip = (methodWord method).length + authority.length + slashes.length := by
    have := congrArg List.length hsplit
    simp only [length_take, length_append] at this
    omega
  have hwhole : methodWord method ++ (authority ++ (slashes ++ [47])) <+: buf := by
    rw [← append_assoc, ← append_assoc, ← hsplit, ← take_succ hc]
    exact take_prefix _ _
  have hauthorityAt := prefix_drop (p := 0) hwhole
  have hslashesAt := prefix_drop hauthorityAt
  refine (failsOr_method hlead.known ((prefix_append _ _).trans hwhole)).trans ?_
  rintro fields _ ⟨hcs, rfl⟩
  rw [Nat.zero_add] at hauthorityAt hslashesAt
  refine (failsOr_authority hauthority hcs ((prefix_append _ _).trans hauthorityAt)).trans ?_
  rintro fields _ ⟨hcs, rfl⟩
  refine (failsOr_slashes slashes (hcs.imp_right Or.inl) hslashes hslashesAt).trans ?_
  rintro fields _ ⟨hle, hcs, rfl⟩
  exact failsOr_here ⟨by omega, hcs, by omega⟩

/-- **An overlong request line fails an assertion.** -/
theorem overlong_failed (h : Overlong buf) : Scans headStep buf .init 0 .failed := by
  have hnever : ∀ {Q : Fields → Nat → Prop}, FailsOr buf .init 0 Q → (∀ fields p, ¬ Q fields p) →
      Scans headStep buf .init 0 .failed := fun h hQ =>
    h.elim id fun ⟨fields, p, hat, _⟩ => (hQ fields p hat).elim
  obtain ⟨method, p, hp, ⟨hlead, hc⟩ | ⟨tip, hlead, ⟨chars, hpath, hlength, hchars, hhead⟩, hc⟩⟩ := h
  · exact hnever (failsOr_lead hlead hc) fun _ _ hat => absurd hat.1 (by omega)
  · have hplen := (List.getElem?_eq_some_iff.mp hc).1
    have hend : tip + 1 + chars.length = p := by
      have := congrArg List.length hpath
      simp only [length_drop, length_take, length_cons] at this
      omega
    have hpathAt : 47 :: (chars ++ [SP]) <+: buf.drop tip := by
      rw [← cons_append, ← hpath, ← take_succ_drop hc (by omega)]
      rw [drop_take]
      exact take_prefix _ _
    obtain ⟨htip, hcharsAt⟩ := head_of_prefix hpathAt
    have hmove : ∀ fields : Fields, fields.cs = .path chars.length →
        headStep buf fields p SP = .fail := by
      intro fields hcs
      have htoU8 : toU8 p = none := if_neg (by omega)
      simp only [headStep, hcs, httpNext, htoU8]
      rfl
    refine hnever (Q := fun _ _ => False) ((failsOr_lead hlead htip).trans ?_) fun _ _ h => h
    rintro fields _ ⟨-, hcs, rfl⟩
    refine (failsOr_path chars hcs (by omega) hchars (fun _ => hhead)
      ((prefix_append _ _).trans hcharsAt)).trans ?_
    rintro fields _ ⟨hcs, rfl⟩
    rw [Nat.zero_add] at hcs
    rw [hend]
    exact Or.inl (.fail hc (hmove fields hcs))

end Overlong

/-! ### Successive calls on a growing buffer -/

/-- The calls of `mog_http_parse` while a head arrives in pieces, each with its buffer: the next one is
made when this one asked for more. -/
def parseCalls (http : Http) (seen : Bytes) : List Bytes → List (Bytes × Option Parsed)
  | [] => []
  | piece :: pieces =>
    match mogHttpParse http (seen ++ piece) with
    | none => [(seen ++ piece, none)]
    | some parsed => (seen ++ piece, some parsed) ::
        (if parsed.state = .continue then parseCalls parsed.http (seen ++ piece) pieces else [])

/-- No assertion failed, the offset is in the buffer, and the path of an accepted head was found. -/
def CallOk (call : Bytes × Option Parsed) : Prop :=
  ∃ parsed, call.2 = some parsed ∧ parsed.http.offset ≤ call.1.length ∧
    (parsed.state = .done → parsed.http.pathTip < parsed.http.pathEnd ∧
      TargetIn call.1 parsed.http.toFields)

section Calls

variable {seen : Bytes} {http : Http}

theorem callOk_halted {why : Halt} {parsed : Parsed}
    (hsmall : buf.length ≤ 65535) (hscan : Scans headStep buf .init 0 (.halted fields p why))
    (hparsed : parsedOf http (.halted fields p why) = some parsed) :
    parsed.state ≠ .continue ∧ CallOk (buf, some parsed) := by
  have hp := headScan_halted hscan
  have hend := headScan_end hsmall hscan
  cases why with
  | done =>
    cases hparsed
    exact ⟨nofun, _, rfl, hp, fun _ => ⟨TargetIn.tip_lt hend, hend⟩⟩
  | invalid errno =>
    cases hparsed
    exact ⟨nofun, _, rfl, hp, fun hdone => ParserState.noConfusion hdone⟩
  | reject =>
    cases hparsed
    exact ⟨nofun, _, rfl, hp, fun hdone => ParserState.noConfusion hdone⟩

theorem not_overlong_of_scans {outcome : Outcome Fields Halt}
    (h : Scans headStep buf .init 0 outcome) (hne : outcome ≠ .failed) : ¬ Overlong buf :=
  fun hoverlong => hne (h.det (overlong_failed hoverlong))

theorem parseCalls_reading (pieces : List Bytes) (h : Reading seen http.toFields)
    (hoffset : http.offset = seen.length) (hnull : http.wbuf = .null)
    (hsmall : (seen ++ pieces.flatten).length ≤ 65535) :
    (∀ call ∈ parseCalls http seen pieces, CallOk call) ↔ ¬ Overlong (seen ++ pieces.flatten) := by
  induction pieces generalizing seen http with
  | nil =>
    rw [flatten_nil, append_nil]
    exact iff_of_true (fun _ hcall => absurd hcall not_mem_nil)
      (not_overlong_of_scans h (by simp))
  | cons piece pieces ih =>
    rw [flatten_cons, ← append_assoc] at hsmall ⊢
    have hpiece : (seen ++ piece).length ≤ 65535 := by
      rw [length_append] at hsmall
      omega
    obtain ⟨outcome, hscan, hparse⟩ := h.parse piece hoffset hnull
    have hwhole : (∀ fields p, outcome ≠ .more fields p) →
        Scans headStep (seen ++ piece ++ pieces.flatten) .init 0 outcome :=
      Scans.append (I := HeadAt (seen ++ piece)) (headScan_step pieces.flatten) hscan
        (headAt_init _)
    rw [parseCalls]
    cases outcome with
    | more fields p =>
      obtain rfl := (headScan_more hscan (headAt_init _)).1
      rw [hparse]
      simp only [parsedOf, if_true, forall_mem_cons]
      rw [and_iff_right ⟨_, rfl, Nat.le_refl _, fun hdone => ParserState.noConfusion hdone⟩]
      exact ih hscan rfl hnull hsmall
    | halted fields p why =>
      obtain ⟨parsed, hparsed⟩ : ∃ parsed, parsedOf http (.halted fields p why) = some parsed := by
        cases why <;> exact ⟨_, rfl⟩
      obtain ⟨hstate, hok⟩ := callOk_halted hpiece hscan hparsed
      rw [hparse, hparsed]
      simp only [if_neg hstate, forall_mem_singleton]
      exact iff_of_true hok (not_overlong_of_scans (hwhole (by simp)) (by simp))
    | failed =>
      rw [hparse]
      simp only [parsedOf, forall_mem_singleton]
      refine iff_of_false ?_ (not_not_intro (headScan_end hsmall (hwhole (by simp))))
      rintro ⟨parsed, hnone, -⟩
      cases hnone
    | stuck =>
      exact absurd (hscan.exec_eq (headScan_ne_stuck _ _ _)) (headScan_ne_stuck _ _ _)

end Calls

/-- **The head parser aborts exactly on an overlong request line**, however the head is cut. -/
theorem parseCalls_ok_iff (http : Http) (pieces : List Bytes) (hsmall : pieces.flatten.length ≤ 65535) :
    (∀ call ∈ parseCalls (mogHttpResetParser http) [] pieces, CallOk call) ↔
      ¬ Overlong pieces.flatten :=
  parseCalls_reading pieces reading_nil rfl rfl hsmall

theorem parseCalls_ok_short :
    let pieces := [ascii "GET /a HT", ascii "TP/1.0\r\n\r\n"]
    pieces.flatten.length ≤ 65535 ∧ ∀ call ∈ parseCalls (mogHttpResetParser mogHttpInit) [] pieces, CallOk call := by
  refine ⟨by decide, (parseCalls_ok_iff _ _ (by decide)).mpr ?_⟩
  rintro ⟨method, p, hp, ⟨-, hc⟩ | ⟨tip, -, -, hc⟩⟩
  all_goals
    have hlength := (List.getElem?_eq_some_iff.mp hc).1
    exact absurd (Nat.lt_trans hp hlength) (by decide)

/-- An absolute URI whose host reaches behind byte 255: `to_u8` aborts. -/
theorem parseCalls_overlong_aborts :
    let head := ascii "GET http://" ++ List.replicate 250 97 ++ ascii "/"
    head.length ≤ 65535 ∧ parseCalls (mogHttpResetParser mogHttpInit) [] [head] = [(head, none)] := by
  decide +kernel

end Cmogstored
