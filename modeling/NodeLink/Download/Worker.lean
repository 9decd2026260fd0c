import NodeLink.Parsing.Buffer
import NodeLink.Lib.Splice

/-!
# The writer and the speed display

`Writer` is the queue as `Writer::add` fills it, oldest job first.  The consumer
thread takes jobs off the front in the same order, so the list is the history of
what the downloader handed over.  `OutFile` is the `ofstream` the consumer
writes to, which may or may not have been opened.

`Speed` keeps the two counters `Speed::add` advances.  Nothing reads them but
the display.
-/

namespace NodeLink

/-- A piece of the file on its way to the disk. -/
structure Job where
  b : Buffer
  offset : Int64
deriving DecidableEq, Repr

/-- The writer as its producer sees it. -/
structure Writer where
  q : List Job
deriving DecidableEq, Repr

/-- `Writer::add`.  The buffer is passed by reference and moved into the job, so what the caller
has left is the moved-from vector, which is empty. -/
def Writer.add (w : Writer) (b : Buffer) (offset : Int64) : Writer × Buffer :=
  (⟨w.q ++ [⟨b, offset⟩]⟩, [])

@[simp] theorem Writer.add_q (w : Writer) (b : Buffer) (offset : Int64) :
    (w.add b offset).1.q = w.q ++ [⟨b, offset⟩] := rfl

@[simp] theorem Writer.add_buffer (w : Writer) (b : Buffer) (offset : Int64) :
    (w.add b offset).2 = [] := rfl

/-- The output stream: the bytes of the file, and whether the stream is good. -/
structure OutFile where
  content : Buffer
  good : Bool
deriving DecidableEq, Repr

/-- `out(filename, ios::binary | ios::out)`, the stream of a fresh `Writer`.  If the file could not be
opened the stream is bad from the start, and the constructor does not look. -/
def OutFile.fresh (opened : Bool) : OutFile := ⟨[], opened⟩

/-- An empty file that was opened. -/
def OutFile.empty : OutFile := .fresh true

/-- `out.seekp(j.offset)` and `out.write(..)`.  A seek before the start fails and leaves the stream
bad.  A write past the end leaves zeros in the gap. -/
def OutFile.write (f : OutFile) (j : Job) : OutFile :=
  if !f.good then f
  else if j.offset.toInt < 0 then { f with good := false }
  else if j.b = [] then f
  else
    let off := j.offset.toInt.toNat
    { f with content :=
        Splice.overwrite (f.content ++ List.replicate (off - f.content.length) 0) off j.b }

/-- The file after the jobs of a list, in order. -/
def OutFile.writeAll (f : OutFile) (js : List Job) : OutFile := js.foldl OutFile.write f

theorem OutFile.write_of_bad {f : OutFile} (h : f.good = false) (j : Job) : f.write j = f := by
  simp only [write]
  rw [h]
  rfl

/-- The counters of the speed display. -/
structure Speed where
  bytesDownloaded : Nat
  sessionBytes : Nat
deriving DecidableEq, Repr

/-- `Speed::add`, on two `size_t` counters. -/
def Speed.add (s : Speed) (b : Nat) : Speed :=
  ⟨(s.bytesDownloaded + b) % 2 ^ 64, (s.sessionBytes + b) % 2 ^ 64⟩

end NodeLink
