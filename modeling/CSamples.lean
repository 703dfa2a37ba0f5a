import CSamples.Tokenizer.Comments
import CSamples.Tokenizer.Main
import CSamples.Lex.Lookahead
import CSamples.Calc.Mycalc
import CSamples.Calc.Delivery
import CSamples.Calc.Overlap
import CSamples.Tokenizer.Parser
import CSamples.Tokenizer.Language
import CSamples.Line.Sendline
import CSamples.Line.Datagrams
import CSamples.Myterm.Txt2bin
import CSamples.Network.Server
import CSamples.Network.Receiver
import CSamples.Libevent.Segments
import CSamples.Libevent.Rot13
import CSamples.Shortpath.Iterations
import CSamples.Socket.Echo
import CSamples.Socket.AcceptHandler
import CSamples.AnyParser.Language
import CSamples.Tap.Run
import CSamples.JunitXml.Merge
import CSamples.Calc.Operands
import CSamples.Calc.Numerals
import CSamples.Tokenizer.Numbers
import CSamples.AnyParser.Literals
import CSamples.AnyParser.Util
import CSamples.Myterm.StdinHandler
import CSamples.Myterm.Debug
import CSamples.Freq.Main
import CSamples.Network.Sockets
import CSamples.Network.Client
import CSamples.Socket.Daemonize
import CSamples.Socket.CmdOutput
import CSamples.JunitXml.Prime
import CSamples.Tokenizer.Str
import CSamples.Tokenizer.Userdata
import CSamples.Scanner.Driver
import CSamples.Scanner.Stream
import CSamples.Line.Shutdown
import CSamples.LemonC.Msort
import CSamples.LemonC.Parse
