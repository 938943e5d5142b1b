import FDemo.MapServer.Download
import FDemo.MapServer.Receiver

/-! # The message handlers

Neither handler looks at what `ParseFromString` returned. The TCP handler strips
the header, parses and dispatches on the type; a file message is a download
request when it carries an item list and an upload packet when it carries a file.
-/
namespace FDemo.MapServer
open Packet

/-- What one call of `tcpServer.onMessage` does: the server after it, the frames written to the
channel, how `receive` ended if it was called, and the exception that left the handler. -/
structure Handled where
  server : Server
  sent : List Bytes := []
  receipt : Option Receipt := none
  exception : Option Exception := none

def onItemlist (pb : Protobuf) (s : Server) (read : ℕ → ReadOps) (fileList : Itemlist) : Handled :=
  match fileList.items with
  | [] => { server := s, exception := some .outOfRange }
  | mapName :: items =>
    match onReceiveDownloadMapRequest pb s.disk read mapName (items.map cString) with
    | .error e => { server := s, exception := some e }
    | .ok sendFileVector => { server := s, sent := sendFileVector }

def onFile (s : Server) (save : SaveOps) (file : File) : Handled :=
  let r := s.upload (file,save)
  { server := r.1, receipt := some r.2, exception := if r.2 = .threw then some .rangeError else none }

/-- `tcpServer.onMessage` once the message object is filled. -/
def dispatch (pb : Protobuf) (s : Server) (read : ℕ → ReadOps) (save : SaveOps) (msgReceive : Message) : Handled :=
  if msgReceive.type = .maplist then { server := s, sent := [onReceiveMapRequest pb] }
  else if msgReceive.type = .file then
    match msgReceive.payload with
    | .itemlist fileList => onItemlist pb s read fileList
    | .file file => onFile s save file
    | _ => { server := s }
  else { server := s }

def tcpOnMessage (pb : Protobuf) (s : Server) (read : ℕ → ReadOps) (save : SaveOps) (buf : Bytes) : Handled :=
  if buf.length < headBodyLength then { server := s, exception := some .lengthError }
  else dispatch pb s read save (pb.parseFromString (stripHeader buf)).1

/-- A message and the operating system's answers to what it asks for. -/
structure Request where
  message : Message
  read : ℕ → ReadOps := fun _ => {}
  save : SaveOps := {}

/-- `udpServer.onMessage`: `msgReceive` after it and the datagrams sent. -/
def udpOnMessage (pb : Protobuf) (buf : Bytes) : Message × List Bytes :=
  let msgReceive := (pb.parseFromString buf).1
  (msgReceive,if msgReceive.type = .heartbeat then [buf] else [])

end FDemo.MapServer
