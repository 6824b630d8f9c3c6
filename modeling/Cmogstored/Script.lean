import Cmogstored.Http

/-! Runs that can be computed. A script says what the client sends and how its socket takes the
responses; every file operation succeeds. Playing a connection against a script gives one of its
runs, so that a behaviour that is possible can be shown by evaluation. -/

namespace Cmogstored

open Prog

/-- `reads` are the results of the next reads, `EAGAIN` when they are used up. Each write to the
socket takes one entry of `writes`: an error, or `none` for a complete write. -/
structure Script where
  reads : List (Except Errno Bytes)
  writes : List (Option Errno)
  size : Fin (2 ^ 63)

/-- A write of `count` bytes to the socket. -/
def Script.write (script : Script) (count : Nat) : Except Errno (Fin (count + 1)) × Script :=
  match script.writes with
  | some errno :: writes => (.error errno, { script with writes := writes })
  | none :: writes => (.ok (Fin.last count), { script with writes := writes })
  | [] => (.ok (Fin.last count), script)

def Script.read (script : Script) (count : Nat) :
    Except Errno { data : Bytes // data.length ≤ count } × Script :=
  match script.reads with
  | [] => (.error .EAGAIN, script)
  | .error errno :: reads => (.error errno, { script with reads := reads })
  | .ok data :: reads =>
    -- what does not fit is left for the next read
    (.ok ⟨data.take count, List.length_take_le count data⟩,
      { script with reads := if data.length ≤ count then reads else .ok (data.drop count) :: reads })

def someDate : HttpDate := ⟨List.replicate 29 48, List.length_replicate⟩

def Script.answer (script : Script) : (request : Call) → Res request × Script
  | .read count => script.read count
  | .write buf => script.write buf.length
  | .writev iov => script.write iov.flatten.length
  | .send buf _ => script.write buf.length
  | .sendfile _ _ count => (.ok (Fin.last count), script)
  | .openRead _ => (.ok 3, script)
  | .openPut _ _ => (.ok 3, script)
  | .mkdir _ => (.ok (), script)
  | .fdmapExpire => ((0, .other), script)
  | .fstat _ => (.ok ⟨script.size, 0, true⟩, script)
  | .stat _ => (.ok ⟨script.size, 0, true⟩, script)
  | .pwrite _ buf _ => (.ok (Fin.last buf.length), script)
  | .fchmod _ => (.ok (), script)
  | .rename _ _ => (.ok (), script)
  | .unlink _ => (.ok (), script)
  | .close _ => ((), script)
  | .random => (0, script)
  | .now => (someDate, script)
  | .note _ => ((), script)

/-- A listener for all methods whose digest is constant. -/
def plainCtx : Ctx where
  fdType := .http
  pid := 1
  md5 _ := List.replicate 16 0
  httpDate _ := someDate
  msgMore := true

/-- A client that sends the given pieces. -/
def Script.sending (pieces : List String) (writes : List (Option Errno)) : Script where
  reads := pieces.map fun piece => .ok (ascii piece)
  writes := writes
  size := 10

/-- The run of a fresh connection against a script, for at most `rounds` calls. -/
def scripted (rounds : Nat) (script : Script) : Run × Io Unit :=
  play Script.answer rounds script (serve plainCtx rounds mogHttpInit)

theorem runs_scripted (rounds : Nat) (script : Script) :
    Runs (serve plainCtx rounds mogHttpInit) (scripted rounds script).1 (scripted rounds script).2 :=
  runs_play Script.answer rounds script _

/-- A GET of a file over HTTP/1.0 whose response head is blocked once. -/
def blockedGet : Script := .sending ["GET /dev1/a HTTP/1.0\r\n\r\n"] [some .EAGAIN]

/-- The same GET on a socket that takes everything. -/
def servedGet : Script := .sending ["GET /dev1/a HTTP/1.0\r\n\r\n"] []

/-! ### What a run shows -/

/-- The first step of a run that closes the connection, with what comes before and after it. -/
def splitAtClose : Run → Option (Run × Http × Run)
  | [] => none
  | ⟨.note (.stepped .close http), _⟩ :: trace => some ([], http, trace)
  | entry :: trace => (splitAtClose trace).map fun split => (entry :: split.1, split.2)

theorem splitAtClose_eq {trace before after : Run} {http : Http}
    (h : splitAtClose trace = some (before, http, after)) :
    trace = before ++ ⟨.note (.stepped .close http), ()⟩ :: after := by
  induction trace generalizing before with
  | nil => simp [splitAtClose] at h
  | cons entry trace ih =>
    rw [splitAtClose.eq_def] at h
    split at h
    · cases h
    · rename_i heq
      cases heq
      cases h
      rfl
    · rename_i heq
      cases heq
      obtain ⟨⟨before', http', after'⟩, hsplit, hmap⟩ := Option.map_eq_some_iff.mp h
      cases hmap
      rw [ih hsplit]
      rfl

/-- The program has failed an assertion. -/
def aborted {α : Type} : Io α → Bool
  | .abort => true
  | _ => false

end Cmogstored
