import DeltaCFS.Model.System

/-! # What the mount is for

The user sees files with contents, which the calls change; packing, sending and expiring relations
change nothing. The server is there to have the same files.
-/

namespace DeltaCFS

open Bytes

/-- Regular files, by path. -/
abbrev Files := Path → Option Bytes

/-- What a call does to the files. -/
def Files.after (files : Files) (call : Call) : Files :=
  match call with
  | .mknod path _ _ => Function.update files path (some [])
  | .unlink path => Function.update files path none
  | .rename source target => Function.update (Function.update files source none) target (files source)
  | .truncate path size => Function.update files path ((files path).map (resize size))
  | .write path offset data => Function.update files path ((files path).map fun content => pwrite content offset data)
  | _ => files

/-- A restart of the client leaves its files. -/
def Files.next (files : Files) (event : SystemEvent) : Files :=
  match event with
  | .call event _ => files.after event.call
  | .restart _ => files

end DeltaCFS
